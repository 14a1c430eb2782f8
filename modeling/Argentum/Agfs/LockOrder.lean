/-
# Agfs.LockOrder — the journal lock and the superblock lock

A transaction holds the journal lock from its outermost begin to the end of its commit,
and the allocator calls inside it take the superblock lock for as long as they search
the bitmap: journal, then superblock. `agfs_write_superblock` takes the superblock lock
first and then, under it, the journal lock twice, for the flush and for the drain.

The machine follows contexts from lock to lock through these calls. `opened` lists the
begins that are not matched yet, so that its length is `tx_depth`. A context inside a
transaction counts as holding the journal lock, also if another one had begun it.

`locks_do_not_cross` holds of every run that keeps the two orders apart in time
(`Apart`). `crossed_locks` is a run that does not.
-/
import Argentum.Lib.Machine
import Argentum.Lib.Mutex

namespace Argentum.Agfs.LockOrder

open Lib.Machine Lib.Mutex List Function

/-! ## The machine -/

inductive Where where
  | out
  /-- `agfs_log_begin`, in `lock_resource`. -/
  | beginWait
  /-- An allocator call, in `superblock_lock`. -/
  | allocWait
  | allocating
  /-- The outermost `agfs_log_commit`, until it unlocks. -/
  | committing
  /-- `agfs_log_flush`. -/
  | flushWait
  | flushing
  /-- `agfs_write_superblock`, from its first lock to its last. -/
  | superWait
  | superFlushWait
  | superFlushing
  | superDrainWait
  | superDraining
  /-- The bitmap and block 0 are written under the superblock lock alone. -/
  | superRest
  deriving DecidableEq

namespace Where

/-- In a section that took the journal lock by itself, not by a begin. -/
def inJournal : Where → Bool
  | committing | flushing | superFlushing | superDraining => true
  | _ => false

def holdsSuper : Where → Bool
  | allocating | superFlushWait | superFlushing | superDrainWait | superDraining | superRest => true
  | _ => false

def waitsJournal : Where → Bool
  | beginWait | flushWait | superFlushWait | superDrainWait => true
  | _ => false

def waitsSuper : Where → Bool
  | allocWait | superWait => true
  | _ => false

/-- Where a context can be inside a transaction. -/
def inTx : Where → Bool
  | out | allocWait | allocating => true
  | _ => false

/-- Between taking the superblock lock and taking the journal lock. -/
def crosses : Where → Bool
  | superFlushWait | superDrainWait => true
  | _ => false

/-- Only superblock write-back waits for the journal lock with the superblock lock held. -/
theorem crosses_iff (w : Where) :
    w.crosses = true ↔ w.holdsSuper = true ∧ w.waitsJournal = true := by
  cases w <;> decide

theorem inTx_waits (w : Where) (inside : w.inTx = true) :
    w.waitsJournal = false ∧ (w.waitsSuper = true → w = allocWait) := by
  revert inside
  cases w <;> decide

theorem inJournal_waits (w : Where) (inside : w.inJournal = true) :
    w.waitsJournal = false ∧ w.waitsSuper = false := by
  revert inside
  cases w <;> decide

theorem holdsSuper_waits (w : Where) (inside : w.holdsSuper = true) : w.waitsSuper = false := by
  revert inside
  cases w <;> decide

end Where

structure Sys (C : Type) where
  journal : Bool
  super : Bool
  opened : List C
  pc : C → Where

inductive Act where
  | begin
  /-- `agfs_balloc`, `agfs_balloc_specific`, `agfs_balloc_contig` or `agfs_bfree`. -/
  | alloc
  | commit
  | flush
  | writeSuper
  /-- The context takes the lock it waits for, or leaves the section it is in. -/
  | go
  deriving DecidableEq

variable {C : Type} [DecidableEq C]

section

variable (s : Sys C) (c : C) (w : Where)

def Sys.move : Sys C :=
  { s with pc := update s.pc c w }

/-- One step from where `c` stands, `none` while the lock it needs is taken. -/
def proceed : Where → Option (Sys C)
  | .out => none
  | .beginWait =>
    if s.journal then none
    else some { s.move c .out with journal := true, opened := c :: s.opened }
  | .allocWait => if s.super then none else some { s.move c .allocating with super := true }
  | .allocating => some { s.move c .out with super := false }
  | .committing => some { s.move c .out with journal := false }
  | .flushWait => if s.journal then none else some { s.move c .flushing with journal := true }
  | .flushing => some { s.move c .out with journal := false }
  | .superWait => if s.super then none else some { s.move c .superFlushWait with super := true }
  | .superFlushWait =>
    if s.journal then none else some { s.move c .superFlushing with journal := true }
  | .superFlushing => some { s.move c .superDrainWait with journal := false }
  | .superDrainWait =>
    if s.journal then none else some { s.move c .superDraining with journal := true }
  | .superDraining => some { s.move c .superRest with journal := false }
  | .superRest => some { s.move c .out with super := false }

/-- Calls start at `out`; flush and superblock write-back come from `sync`, outside any
transaction of the caller. -/
def step : C × Act → Option (Sys C)
  | (c, .go) => proceed s c (s.pc c)
  | (c, .begin) =>
    if s.pc c ≠ .out then none
    else if s.opened = [] then some (s.move c .beginWait)
    else some { s with opened := c :: s.opened }
  | (c, .alloc) => if s.pc c ≠ .out then none else some (s.move c .allocWait)
  | (c, .commit) =>
    if s.pc c ≠ .out ∨ c ∉ s.opened then none
    else if s.opened.length = 1 then
      some { s.move c .committing with opened := s.opened.erase c }
    else some { s with opened := s.opened.erase c }
  | (c, .flush) => if s.pc c ≠ .out ∨ c ∈ s.opened then none else some (s.move c .flushWait)
  | (c, .writeSuper) => if s.pc c ≠ .out ∨ c ∈ s.opened then none else some (s.move c .superWait)

/-- Both locks free, every context outside. -/
def idle : Sys C := ⟨false, false, [], fun _ => .out⟩

/-! ## Crossed locks -/

def HoldsJournal : Prop := c ∈ s.opened ∨ (s.pc c).inJournal = true

/-- Each of two contexts holds one lock and waits for the other. -/
def Crossed : Prop :=
  ∃ c d, HoldsJournal s c ∧ (s.pc c).waitsSuper = true ∧
    (s.pc d).holdsSuper = true ∧ (s.pc d).waitsJournal = true

def Blocked : Prop :=
  (s.pc c).waitsSuper = true ∧ s.super = true ∨ (s.pc c).waitsJournal = true ∧ s.journal = true

/-- A transaction does not call the allocator while a superblock write-back holds the
superblock lock and has yet to take the journal lock, and a write-back does not take
the superblock lock while a transaction waits for it in the allocator. -/
def Apart : C × Act → Prop
  | (c, .alloc) => c ∈ s.opened → ∀ d, (s.pc d).crosses = false
  | (c, .go) => s.pc c = .superWait → ∀ d ∈ s.opened, s.pc d ≠ .allocWait
  | _ => True

/-! ## The invariant -/

structure Inv : Prop where
  /-- The journal lock is held by a transaction, or by the context in a section of it. -/
  journal : s.opened = [] ∧ Exclusive Where.inJournal s.journal s.pc ∨
    s.opened ≠ [] ∧ s.journal = true ∧ Exclusive Where.inJournal false s.pc
  super : Exclusive Where.holdsSuper s.super s.pc
  inTx : ∀ c ∈ s.opened, (s.pc c).inTx = true
  apart : ∀ c ∈ s.opened, s.pc c = .allocWait → ∀ d, (s.pc d).crosses = false

end

open Where

section Moves

variable {s : Sys C} {c : C} {w : Where}

omit [DecidableEq C] in
theorem Inv.outside (inv : Inv s) (here : (s.pc c).inTx = false) : c ∉ s.opened := by
  intro member
  rw [inv.inTx c member] at here
  cases here

section

variable (inv : Inv s)

include inv

omit [DecidableEq C] in
/-- A context inside a section of the journal lock is there without a transaction. -/
theorem Inv.section_alone (inside : (s.pc c).inJournal = true) :
    s.opened = [] ∧ Exclusive inJournal s.journal s.pc := by
  rcases inv.journal with alone | ⟨_, _, nobody⟩
  · exact alone
  · exact absurd (nobody.locked inside) (by decide)

theorem Inv.inTx_move (fits : w.inTx = true ∨ c ∉ s.opened) :
    ∀ d ∈ s.opened, (update s.pc c w d).inTx = true := by
  intro d member
  by_cases here : d = c
  · subst here
    rw [update_self]
    exact fits.resolve_right fun outside => outside member
  · rw [update_of_ne here]
    exact inv.inTx d member

theorem Inv.apart_move (waits : w = .allocWait → c ∈ s.opened → ∀ d, (s.pc d).crosses = false)
    (crosses : w.crosses = true → ∀ d ∈ s.opened, s.pc d ≠ .allocWait) :
    ∀ d ∈ s.opened, update s.pc c w d = .allocWait → ∀ e, (update s.pc c w e).crosses = false := by
  intro d member waiting e
  by_cases here : d = c
  · subst here
    rw [update_self] at waiting
    by_cases same : e = d
    · rw [same, update_self, waiting]
      rfl
    · rw [update_of_ne same]
      exact waits waiting member e
  · rw [update_of_ne here] at waiting
    by_cases same : e = c
    · rw [same]
      by_contra crossing
      exact crosses (by simpa using crossing) d member waiting
    · rw [update_of_ne same]
      exact inv.apart d member waiting e

/-- A move that touches neither lock. -/
theorem Inv.move (sameJournal : w.inJournal = (s.pc c).inJournal)
    (sameSuper : w.holdsSuper = (s.pc c).holdsSuper) (fits : w.inTx = true ∨ c ∉ s.opened)
    (waits : w = .allocWait → c ∈ s.opened → ∀ d, (s.pc d).crosses = false)
    (crosses : w.crosses = false) : Inv (s.move c w) where
  journal := inv.journal.imp (fun alone => ⟨alone.1, alone.2.stay sameJournal⟩)
    fun tx => ⟨tx.1, tx.2.1, tx.2.2.stay sameJournal⟩
  super := inv.super.stay sameSuper
  inTx := inv.inTx_move fits
  apart := inv.apart_move waits fun crossing => absurd (crosses.symm.trans crossing) (by decide)

/-- The superblock lock is taken or given back. -/
theorem Inv.moveSuper {bit : Bool} (lock : Exclusive holdsSuper bit (update s.pc c w))
    (sameJournal : w.inJournal = (s.pc c).inJournal)
    (fits : w.inTx = true ∨ c ∉ s.opened) (waits : w ≠ .allocWait)
    (crosses : w.crosses = true → ∀ d ∈ s.opened, s.pc d ≠ .allocWait) :
    Inv { s.move c w with super := bit } where
  journal := inv.journal.imp (fun alone => ⟨alone.1, alone.2.stay sameJournal⟩)
    fun tx => ⟨tx.1, tx.2.1, tx.2.2.stay sameJournal⟩
  super := lock
  inTx := inv.inTx_move fits
  apart := inv.apart_move (fun here => absurd here waits) crosses

/-- A section of the journal lock begins. -/
theorem Inv.enterJournal (free : s.journal = false) (inside : w.inJournal = true)
    (sameSuper : w.holdsSuper = (s.pc c).holdsSuper) (outside : (s.pc c).inTx = false)
    (waits : w ≠ .allocWait) (crosses : w.crosses = false) :
    Inv { s.move c w with journal := true } where
  journal := by
    rcases inv.journal with ⟨none, lock⟩ | ⟨_, taken, _⟩
    · rw [free] at lock
      exact .inl ⟨none, lock.enter inside⟩
    · exact absurd (free.symm.trans taken) (by decide)
  super := inv.super.stay sameSuper
  inTx := inv.inTx_move (.inr (inv.outside outside))
  apart := inv.apart_move (fun here => absurd here waits) fun crossing =>
    absurd (crosses.symm.trans crossing) (by decide)

/-- And ends: there was no transaction meanwhile. -/
theorem Inv.leaveJournal (inside : (s.pc c).inJournal = true)
    (outside : w.inJournal = false) (sameSuper : w.holdsSuper = (s.pc c).holdsSuper) :
    Inv { s.move c w with journal := false } := by
  obtain ⟨none, lock⟩ := inv.section_alone inside
  have nobody := eq_nil_iff_forall_not_mem.mp none
  exact ⟨.inl ⟨none, lock.leave inside outside⟩, inv.super.stay sameSuper,
    inv.inTx_move (.inr (nobody c)),
    inv.apart_move (fun _ member => absurd member (nobody c))
      fun _ d member => absurd member (nobody d)⟩

/-- The last commit hands the journal lock from the transaction to its own section. -/
theorem Inv.lastCommit (here : s.pc c = .out) (member : c ∈ s.opened) (last : s.opened.length = 1) :
    Inv { s.move c .committing with opened := s.opened.erase c } := by
  have none : s.opened.erase c = [] := by
    rw [← length_eq_zero_iff, length_erase_of_mem member, last]
  rcases inv.journal with ⟨empty, _⟩ | ⟨_, taken, lock⟩
  · rw [empty] at member
    exact absurd member not_mem_nil
  · have nobody := eq_nil_iff_forall_not_mem.mp none
    refine ⟨.inl ⟨none, ?_⟩, inv.super.stay (by rw [here]; rfl),
      fun d left => absurd left (nobody d), fun d left => absurd left (nobody d)⟩
    show Exclusive inJournal s.journal _
    rw [taken]
    exact lock.enter rfl

theorem Inv.innerCommit (member : c ∈ s.opened) (inner : ¬ s.opened.length = 1) :
    Inv { s with opened := s.opened.erase c } := by
  have left : s.opened.erase c ≠ [] := by
    intro none
    have size := length_erase_of_mem member
    have some := length_pos_of_mem member
    rw [none, length_nil] at size
    omega
  rcases inv.journal with ⟨empty, _⟩ | ⟨_, taken, nobody⟩
  · rw [empty] at member
    exact absurd member not_mem_nil
  · exact ⟨.inr ⟨left, taken, nobody⟩, inv.super,
      fun d inside => inv.inTx d (mem_of_mem_erase inside),
      fun d inside => inv.apart d (mem_of_mem_erase inside)⟩

end

omit [DecidableEq C] in
/-- A begin inside an open transaction, by whomever. -/
theorem Inv.join (inv : Inv s) (here : s.pc c = .out) (opened : s.opened ≠ []) :
    Inv { s with opened := c :: s.opened } := by
  rcases inv.journal with ⟨empty, _⟩ | ⟨_, taken, nobody⟩
  · exact absurd empty opened
  refine ⟨.inr ⟨cons_ne_nil _ _, taken, nobody⟩, inv.super, ?_, ?_⟩
  · intro d member
    rcases mem_cons.mp member with rfl | old
    · rw [here]
      rfl
    · exact inv.inTx d old
  · intro d member waiting
    rcases mem_cons.mp member with rfl | old
    · rw [here] at waiting
      cases waiting
    · exact inv.apart d old waiting

/-- The outermost begin gets the lock. -/
theorem Inv.acquire (inv : Inv s) (here : s.pc c = .beginWait) (free : s.journal = false) :
    Inv { s.move c .out with journal := true, opened := c :: s.opened } := by
  rcases inv.journal with ⟨none, lock⟩ | ⟨_, taken, _⟩
  · have single : c :: s.opened = [c] := by rw [none]
    rw [free] at lock
    refine ⟨.inr ⟨cons_ne_nil _ _, rfl, lock.stay (by rw [here]; rfl)⟩,
      inv.super.stay (by rw [here]; rfl), ?_, ?_⟩
    · intro d member
      rw [show c :: s.opened = [c] from single, mem_singleton] at member
      show (update s.pc c .out d).inTx = true
      rw [member, update_self]
      rfl
    · intro d member waiting
      rw [show c :: s.opened = [c] from single, mem_singleton] at member
      change update s.pc c .out d = .allocWait at waiting
      rw [member, update_self] at waiting
      cases waiting
  · exact absurd (free.symm.trans taken) (by decide)

end Moves

/-! ## Steps -/

theorem proceed_inv {s s' : Sys C} {c : C} (inv : Inv s) (apart : Apart s (c, .go))
    (taken : proceed s c (s.pc c) = some s') : Inv s' := by
  cases here : s.pc c <;> rw [here] at taken <;> simp only [proceed] at taken
  case out => cases taken
  case beginWait =>
    obtain ⟨free, rfl⟩ := unless_eq_some.mp taken
    exact inv.acquire here (by simpa using free)
  case allocWait =>
    obtain ⟨free, rfl⟩ := unless_eq_some.mp taken
    have lock := inv.super
    rw [show s.super = false by simpa using free] at lock
    exact inv.moveSuper (lock.enter rfl) (by rw [here]; rfl) (.inl rfl) (by decide)
      nofun
  case allocating | superRest =>
    cases taken
    exact inv.moveSuper (inv.super.leave (by rw [here]; rfl) rfl) (by rw [here]; rfl)
      (.inl rfl) (by decide) nofun
  case committing | flushing | superFlushing | superDraining =>
    cases taken
    exact inv.leaveJournal (by rw [here]; rfl) rfl (by rw [here]; rfl)
  case flushWait | superFlushWait | superDrainWait =>
    obtain ⟨free, rfl⟩ := unless_eq_some.mp taken
    exact inv.enterJournal (by simpa using free) rfl (by rw [here]; rfl) (by rw [here]; rfl)
      (by decide) rfl
  case superWait =>
    obtain ⟨free, rfl⟩ := unless_eq_some.mp taken
    have lock := inv.super
    rw [show s.super = false by simpa using free] at lock
    exact inv.moveSuper (lock.enter rfl) (by rw [here]; rfl) (.inr (inv.outside (by rw [here]; rfl)))
      (by decide) fun _ => apart here

theorem step_inv {s s' : Sys C} {l : C × Act} (inv : Inv s) (apart : Apart s l)
    (taken : step s l = some s') : Inv s' := by
  obtain ⟨c, a⟩ := l
  cases a with
  | go => exact proceed_inv inv apart taken
  | begin =>
    simp only [step, Option.ite_none_left_eq_some, not_not] at taken
    obtain ⟨here, taken⟩ := taken
    split at taken
    · rename_i none
      cases taken
      have outside := eq_nil_iff_forall_not_mem.mp none c
      exact inv.move (by rw [here]; rfl) (by rw [here]; rfl) (.inr outside)
        nofun rfl
    · rename_i opened
      cases taken
      exact inv.join here opened
  | alloc =>
    simp only [step, unless_eq_some, not_not] at taken
    obtain ⟨here, rfl⟩ := taken
    exact inv.move (by rw [here]; rfl) (by rw [here]; rfl) (.inl rfl) (fun _ => apart) rfl
  | commit =>
    simp only [step, Option.ite_none_left_eq_some, not_or, not_not] at taken
    obtain ⟨ready, taken⟩ := taken
    split at taken
    · rename_i last
      cases taken
      exact inv.lastCommit ready.1 ready.2 last
    · rename_i inner
      cases taken
      exact inv.innerCommit ready.2 inner
  | flush | writeSuper =>
    simp only [step, unless_eq_some, not_or, not_not] at taken
    obtain ⟨ready, rfl⟩ := taken
    exact inv.move (by rw [ready.1]; rfl) (by rw [ready.1]; rfl) (.inr ready.2)
      nofun rfl

omit [DecidableEq C] in
theorem idle_inv : Inv (idle : Sys C) where
  journal := .inl ⟨rfl, .free fun _ => rfl⟩
  super := .free fun _ => rfl
  inTx := forall_mem_nil _
  apart := forall_mem_nil _

/-! ## What the invariant gives -/

section Progress

omit [DecidableEq C]

variable {s : Sys C} {c d : C}

variable (inv : Inv s)

include inv

/-- Whoever holds the journal lock and waits for the superblock lock is in the allocator,
inside a transaction. -/
theorem Inv.waits_in_allocator (holds : HoldsJournal s c)
    (waits : (s.pc c).waitsSuper = true) : c ∈ s.opened ∧ s.pc c = .allocWait := by
  rcases holds with member | inside
  · exact ⟨member, ((s.pc c).inTx_waits (inv.inTx c member)).2 waits⟩
  · rw [((s.pc c).inJournal_waits inside).2] at waits
    cases waits

theorem Inv.not_crossed : ¬ Crossed s := by
  rintro ⟨c, d, holds, waits, holdsSuper, waitsJournal⟩
  obtain ⟨member, here⟩ := inv.waits_in_allocator holds waits
  have crossing := (crosses_iff _).mpr ⟨holdsSuper, waitsJournal⟩
  rw [inv.apart c member here d] at crossing
  cases crossing

theorem Inv.journal_holder (taken : s.journal = true) : ∃ o, HoldsJournal s o := by
  rcases inv.journal with ⟨_, lock⟩ | ⟨opened, _, _⟩
  · rw [taken] at lock
    obtain ⟨o, inside⟩ := lock.holder
    exact ⟨o, .inr inside⟩
  · obtain ⟨o, member⟩ := exists_mem_of_ne_nil _ opened
    exact ⟨o, .inl member⟩

/-- A holder of the journal lock waits for the superblock lock or not at all. -/
theorem Inv.holder_waits (holds : HoldsJournal s c) : (s.pc c).waitsJournal = false := by
  rcases holds with member | inside
  · exact ((s.pc c).inTx_waits (inv.inTx c member)).1
  · exact ((s.pc c).inJournal_waits inside).1

/-- From a holder of the journal lock there is a holder of a lock who can go on. -/
theorem Inv.journal_progress (holds : HoldsJournal s c) :
    ∃ o, (HoldsJournal s o ∨ (s.pc o).holdsSuper = true) ∧ ¬ Blocked s o := by
  by_cases blocked : Blocked s c
  · rcases blocked with ⟨waits, taken⟩ | ⟨waits, _⟩
    · have lock := inv.super
      rw [taken] at lock
      obtain ⟨o, inside⟩ := lock.holder
      refine ⟨o, .inr inside, ?_⟩
      rintro (⟨again, _⟩ | ⟨crossing, _⟩)
      · rw [(s.pc o).holdsSuper_waits inside] at again
        cases again
      · exact inv.not_crossed ⟨c, o, holds, waits, inside, crossing⟩
    · rw [inv.holder_waits holds] at waits
      cases waits
  · exact ⟨c, .inl holds, blocked⟩

theorem Inv.progress (blocked : Blocked s c) :
    ∃ o, (HoldsJournal s o ∨ (s.pc o).holdsSuper = true) ∧ ¬ Blocked s o := by
  rcases blocked with ⟨_, taken⟩ | ⟨_, taken⟩
  · have lock := inv.super
    rw [taken] at lock
    obtain ⟨o, inside⟩ := lock.holder
    by_cases stuck : Blocked s o
    · rcases stuck with ⟨again, _⟩ | ⟨_, journal⟩
      · rw [(s.pc o).holdsSuper_waits inside] at again
        cases again
      · obtain ⟨h, holds⟩ := inv.journal_holder journal
        exact inv.journal_progress holds
    · exact ⟨o, .inr inside, stuck⟩
  · obtain ⟨o, holds⟩ := inv.journal_holder taken
    exact inv.journal_progress holds

end Progress

/-! ## Runs -/

/-- **The two locks do not cross.** On every run from idle whose steps keep the
transactions' allocator calls and the superblock write-back apart, no two contexts hold
one lock each and wait for the other's, and whenever a context is blocked, some holder
of a lock is not. -/
theorem locks_do_not_cross {ls : List (C × Act)} {s : Sys C}
    (apart : Guarded step Apart idle ls) (reached : run step idle ls = some s) :
    ¬ Crossed s ∧ ∀ c, Blocked s c →
      ∃ o, (HoldsJournal s o ∨ (s.pc o).holdsSuper = true) ∧ ¬ Blocked s o := by
  have inv : Inv s :=
    run_inv (fun _ _ _ inv apart taken => step_inv inv apart taken) idle_inv apart reached
  exact ⟨inv.not_crossed, fun _ blocked => inv.progress blocked⟩

/-! ## Poles -/

/-- A transaction allocates; then the other context begins to write the superblock back and
waits for the journal lock. -/
def waitingWriteBack : List (Bool × Act) :=
  [(true, .begin), (true, .go), (true, .alloc), (true, .go), (true, .go),
    (false, .writeSuper), (false, .go)]

theorem waitingWriteBack_apart : Guarded step Apart idle waitingWriteBack := by
  refine .cons trivial rfl (.cons ?_ rfl (.cons ?_ rfl (.cons ?_ rfl (.cons ?_ rfl
    (.cons trivial rfl (.cons ?_ rfl trivial))))))
  · exact fun _ _ member => absurd member not_mem_nil
  · exact fun _ d => by cases d <;> rfl
  · intro here
    cases here
  · intro here
    cases here
  · intro _ d _ waiting
    cases d <;> cases waiting

/-- The write-back waits, and the transaction it waits for can go on. -/
theorem locks_do_not_cross_waiting :
    ∃ s, run step idle waitingWriteBack = some s ∧ Blocked s false ∧ ¬ Crossed s ∧
      ∃ o, (HoldsJournal s o ∨ (s.pc o).holdsSuper = true) ∧ ¬ Blocked s o := by
  refine ⟨_, rfl, .inr ⟨rfl, rfl⟩, ?_⟩
  have safe := locks_do_not_cross waitingWriteBack_apart rfl
  exact ⟨safe.1, safe.2 false (.inr ⟨rfl, rfl⟩)⟩

/-- The same two calls, with the allocation after the write-back has taken its lock: both wait
for ever. -/
def crossing : List (Bool × Act) :=
  [(true, .begin), (true, .go), (false, .writeSuper), (false, .go), (true, .alloc)]

theorem crossed_locks :
    ∃ s, run step idle crossing = some s ∧ Crossed s ∧
      step s (true, .go) = none ∧ step s (false, .go) = none :=
  ⟨_, rfl, ⟨true, false, .inl (mem_singleton.mpr rfl), rfl, rfl, rfl⟩, rfl, rfl⟩

end Argentum.Agfs.LockOrder
