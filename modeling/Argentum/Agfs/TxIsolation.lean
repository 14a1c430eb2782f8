/-
# Agfs.TxIsolation — two contexts and one transaction

`agfs_log_begin` takes the journal lock only when no transaction is open
(`tx_depth == 0`); otherwise it counts one level more, whoever calls. The commit that
brings the depth back to 0 releases it. The machine runs any number of contexts through
begin, block updates and commit, switching wherever the source can sleep: while a begin
waits for the lock, between updates, and inside the outermost commit, where the depth is
0 already and the lock still held.

`mine c` is what `c` has recorded since its outermost begin. `transactions_isolated`
asks that nobody but the owner begins while a transaction is open (`OwnBegin`).
`joined_transaction` is a second context that does.
-/
import Argentum.Agfs.CommitCache
import Argentum.Agfs.Replay
import Argentum.Lib.Machine

namespace Argentum.Agfs.TxIsolation

open Lib.WriteLog Lib.Machine Fs Function

/-! ## The machine -/

inductive Phase where
  | running
  /-- In `lock_resource`, having seen `tx_depth == 0`. -/
  | waiting
  /-- In the outermost commit, past the decrement of `tx_depth`. -/
  | committing
  deriving DecidableEq

structure Sys (C D : Type) where
  sb : Sb D
  /-- `journal_locked`. -/
  locked : Bool
  phase : C → Phase
  /-- The begins of a context that it has not matched with a commit yet. -/
  nest : C → Nat
  mine : C → Writes D

inductive Act (D : Type) where
  | begin
  /-- A waiting begin gets the lock. -/
  | acquire
  /-- `bread`, change, `agfs_log_write_block`. -/
  | update (w : Nat × D) (kmallocs : Bool)
  | commit
  /-- The outermost commit ends and unlocks. -/
  | finish

variable {C D : Type} [DecidableEq C]

/-- What a context has recorded once its update `w` took `sb` to `sb'`: a poisoned
transaction records nothing, and an overflow writes through what was recorded. -/
def recordedAfter (sb sb' : Sb D) (ws : Writes D) (w : Nat × D) : Writes D :=
  if sb.txPoisoned then ws else if sb'.txPoisoned then [] else ws ++ [w]

variable (g : Geometry) [BlockFormat D]

def step (s : Sys C D) : C × Act D → Option (Sys C D)
  | (c, .begin) =>
    if s.phase c ≠ .running then none
    else if s.sb.txDepth = 0 then some { s with phase := update s.phase c .waiting }
    else
      some { s with
        sb := s.sb.logBegin
        nest := update s.nest c (s.nest c + 1)
        mine := if s.nest c = 0 then update s.mine c [] else s.mine }
  | (c, .acquire) =>
    if s.phase c = .waiting ∧ s.locked = false then
      some
        { sb := { s.sb with tx := [], txDepth := s.sb.txDepth + 1 }
          locked := true
          phase := update s.phase c .running
          nest := update s.nest c (s.nest c + 1)
          mine := update s.mine c [] }
    else none
  | (c, .update w kmallocs) =>
    if s.phase c = .running ∧ 0 < s.nest c then
      let sb := s.sb.update w kmallocs
      some { s with
        sb := sb
        mine := update s.mine c (recordedAfter s.sb sb (s.mine c) w) }
    else none
  | (c, .commit) =>
    if s.phase c = .running ∧ 0 < s.nest c then
      let s' := { s with
        sb := { s.sb with txDepth := s.sb.txDepth - 1 }
        nest := update s.nest c (s.nest c - 1) }
      if s.sb.txDepth = 1 then some { s' with phase := update s.phase c .committing }
      else some s'
    else none
  | (c, .finish) =>
    if s.phase c = .committing then
      some { s with
        sb := s.sb.commitOutermost g
        locked := false
        phase := update s.phase c .running }
    else none

/-- A volume at rest, and no context in a transaction. -/
def idle (sb : Sb D) : Sys C D where
  sb := sb
  locked := false
  phase := fun _ => .running
  nest := fun _ => 0
  mine := fun _ => []

/-- A begin that finds a transaction open comes from the context that opened it. -/
def OwnBegin (s : Sys C D) : C × Act D → Prop
  | (c, .begin) => s.sb.txDepth = 0 ∨ 0 < s.nest c
  | _ => True

/-! ## Whose transaction it is -/

omit [DecidableEq C] [BlockFormat D] in
/-- The transaction, open or in its commit, is that of `o` alone. -/
structure Held (s : Sys C D) (o : C) : Prop where
  locked : s.locked = true
  draining : s.sb.logDraining = false
  nest : ∀ c, c ≠ o → s.nest c = 0
  phase : ∀ c, c ≠ o → s.phase c ≠ .committing
  depth : s.sb.txDepth = s.nest o
  tx : s.sb.tx = recordAll [] (s.mine o)
  poisoned : s.sb.txPoisoned = true → s.mine o = []

inductive Shape (s : Sys C D) : Prop where
  | free (unlocked : s.locked = false) (quiet : s.sb.Quiet) (nest : ∀ c, s.nest c = 0)
      (phase : ∀ c, s.phase c ≠ .committing)
  | opened (o : C) (held : Held s o) (nest : 0 < s.nest o) (phase : s.phase o = .running)
  | closing (o : C) (held : Held s o) (nest : s.nest o = 0) (phase : s.phase o = .committing)

section Steps

variable {g} {s s' : Sys C D} {c : C}

omit [DecidableEq C] [BlockFormat D] in
theorem Held.owner {o : C} (held : Held s o) (inside : 0 < s.nest c) : c = o := by
  by_contra other
  rw [held.nest c other] at inside
  exact absurd inside (Nat.lt_irrefl 0)

omit [DecidableEq C] [BlockFormat D] in
theorem Shape.open_of_inside (shape : Shape s) (inside : 0 < s.nest c) :
    Held s c ∧ s.phase c = .running := by
  cases shape with
  | free _ _ nest _ =>
    rw [nest c] at inside
    exact absurd inside (Nat.lt_irrefl 0)
  | opened o held _ phase =>
    obtain rfl := held.owner inside
    exact ⟨held, phase⟩
  | closing o held nest _ =>
    obtain rfl := held.owner inside
    exact absurd inside (by omega)

omit [DecidableEq C] [BlockFormat D] in
theorem Shape.closing_of_committing (shape : Shape s) (closing : s.phase c = .committing) :
    Held s c ∧ s.nest c = 0 := by
  cases shape with
  | free _ _ _ phase => exact absurd closing (phase c)
  | opened o held _ phase =>
    by_cases same : c = o
    · rw [same, phase] at closing
      cases closing
    · exact absurd closing (held.phase c same)
  | closing o held nest _ =>
    obtain rfl : c = o := by
      by_contra other
      exact held.phase c other closing
    exact ⟨held, nest⟩

theorem begin_shape (shape : Shape s) (own : OwnBegin s (c, .begin))
    (taken : step g s (c, .begin) = some s') : Shape s' := by
  simp only [step, Option.ite_none_left_eq_some, not_not] at taken
  obtain ⟨running, taken⟩ := taken
  split at taken
  · -- nothing is open: wait for the lock
    cases taken
    have waits : ∀ d, s.phase d ≠ .committing → update s.phase c .waiting d ≠ .committing := by
      intro d other
      by_cases same : d = c
      · rw [same, update_self]
        decide
      · rwa [update_of_ne same]
    cases shape with
    | free unlocked quiet nest phase =>
      exact .free unlocked quiet nest fun d => waits d (phase d)
    | opened o held nest phase =>
      have depth := held.depth
      omega
    | closing o held nest phase =>
      have other : o ≠ c := by
        rintro rfl
        rw [running] at phase
        cases phase
      refine .closing o ?_ nest ((update_of_ne other _ _).trans phase)
      exact { held with phase := fun d apart => waits d (held.phase d apart) }
  · rename_i opened
    have inside : 0 < s.nest c := own.resolve_left opened
    obtain ⟨held, phase⟩ := shape.open_of_inside inside
    have nested := Nat.ne_of_gt inside
    rw [if_neg nested] at taken
    cases taken
    have count : update s.nest c (s.nest c + 1) c = s.nest c + 1 :=
      update_self _ _ _
    have positive : 0 < update s.nest c (s.nest c + 1) c := by omega
    refine .opened c ?_ positive phase
    refine { held with nest := fun d apart => ?_, depth := ?_, tx := ?_ }
    · exact (update_of_ne apart _ _).trans (held.nest d apart)
    · have same : s.sb.txDepth + 1 = s.nest c + 1 := by rw [held.depth]
      exact same.trans count.symm
    · show (if s.sb.txDepth = 0 then [] else s.sb.tx) = _
      rw [if_neg opened, held.tx]

theorem acquire_shape (shape : Shape s) (taken : step g s (c, .acquire) = some s') : Shape s' := by
  simp only [step, when_eq_some] at taken
  obtain ⟨ready, rfl⟩ := taken
  cases shape with
  | free unlocked quiet nest phase =>
    have count : update s.nest c (s.nest c + 1) c = 1 := by rw [update_self, nest c]
    have positive : 0 < update s.nest c (s.nest c + 1) c := by omega
    have same : s.sb.txDepth + 1 = 1 := by rw [quiet.depth]
    refine .opened c ?_ positive (update_self _ _ _)
    exact
      { locked := rfl
        draining := quiet.draining
        nest := fun d apart => (update_of_ne apart _ _).trans (nest d)
        phase := fun d apart => by
          show update s.phase c .running d ≠ .committing
          rw [update_of_ne apart]
          exact phase d
        depth := same.trans count.symm
        tx := by
          show [] = recordAll [] (update s.mine c [] c)
          rw [update_self]
          rfl
        poisoned := fun _ => update_self _ _ _ }
  | opened o held _ _ | closing o held _ _ =>
    exact absurd (held.locked.symm.trans ready.2) (by decide)

omit [DecidableEq C] [BlockFormat D] in
/-- One more update of the owner, whichever way `agfs_log_write_block` takes. -/
theorem Held.update (held : Held s c) (inside : 0 < s.nest c) (w : Nat × D) (kmallocs : Bool) :
    let ws := recordedAfter s.sb (s.sb.update w kmallocs) (s.mine c) w
    (s.sb.update w kmallocs).tx = recordAll [] ws ∧
      ((s.sb.update w kmallocs).txPoisoned = true → ws = []) := by
  have depth : 0 < s.sb.txDepth := held.depth ▸ inside
  obtain ⟨poisoned, shape⟩ | ⟨clean, _, shape⟩ | ⟨clean, _, shape⟩ :=
    Sb.update_cases depth held.draining w kmallocs <;> simp only [shape, recordedAfter]
  · rw [if_pos poisoned]
    exact ⟨held.tx, held.poisoned⟩
  · rw [if_neg (by simp [clean]), if_neg (by simp [clean]), held.tx]
    refine ⟨by simp [recordAll], fun poisoned => ?_⟩
    exact absurd (clean.symm.trans poisoned) (by decide)
  · rw [if_neg (by simp [clean])]
    exact ⟨rfl, fun _ => rfl⟩

theorem update_shape {w : Nat × D} {kmallocs : Bool} (shape : Shape s)
    (taken : step g s (c, .update w kmallocs) = some s') : Shape s' := by
  simp only [step, when_eq_some] at taken
  obtain ⟨ready, rfl⟩ := taken
  obtain ⟨held, phase⟩ := shape.open_of_inside ready.2
  obtain ⟨tx, poisoned⟩ := held.update ready.2 w kmallocs
  obtain ⟨sameDepth, sameMode⟩ :=
    Sb.update_modes (held.depth ▸ ready.2) held.draining w kmallocs
  refine .opened c ?_ ready.2 phase
  exact
    { locked := held.locked
      draining := sameMode.trans held.draining
      nest := held.nest
      phase := held.phase
      depth := sameDepth.trans held.depth
      tx := by
        show _ = recordAll [] (update s.mine c _ c)
        rw [update_self]
        exact tx
      poisoned := fun isPoisoned => (update_self _ _ _).trans (poisoned isPoisoned) }

/-- The owner's commit comes to the log exactly when it matches the outermost begin. -/
theorem commit_shape (shape : Shape s) (taken : step g s (c, .commit) = some s') :
    Shape s' ∧ (s'.nest c = 0 ↔ s'.phase c = .committing) := by
  simp only [step, Option.ite_none_right_eq_some] at taken
  obtain ⟨ready, taken⟩ := taken
  obtain ⟨held, phase⟩ := shape.open_of_inside ready.2
  have depth := held.depth
  have count : update s.nest c (s.nest c - 1) c = s.nest c - 1 :=
    update_self _ _ _
  have same : s.sb.txDepth - 1 = s.nest c - 1 := by rw [depth]
  have kept : ∀ d, d ≠ c → update s.nest c (s.nest c - 1) d = 0 := fun d apart =>
    (update_of_ne apart _ _).trans (held.nest d apart)
  split at taken
  · cases taken
    have closes : update s.phase c .committing c = .committing :=
      update_self _ _ _
    have done : update s.nest c (s.nest c - 1) c = 0 := by omega
    refine ⟨.closing c ?_ done closes, fun _ => closes, fun _ => done⟩
    refine { held with
      nest := kept
      phase := fun d apart => ?_
      depth := same.trans count.symm }
    show update s.phase c .committing d ≠ .committing
    rw [update_of_ne apart]
    exact held.phase d apart
  · cases taken
    have left : 0 < update s.nest c (s.nest c - 1) c := by omega
    refine ⟨.opened c ?_ left phase, fun none => absurd none (Nat.ne_of_gt left), fun closes => ?_⟩
    · exact { held with nest := kept, depth := same.trans count.symm }
    · have running := closes
      rw [phase] at running
      cases running

theorem finish_shape (shape : Shape s) (taken : step g s (c, .finish) = some s') : Shape s' := by
  simp only [step, when_eq_some] at taken
  obtain ⟨closing, rfl⟩ := taken
  obtain ⟨held, nest⟩ := shape.closing_of_committing closing
  have quiet : (s.sb.commitOutermost g).Quiet :=
    Sb.commitOutermost_quiet (held.depth.trans nest) held.draining
  refine .free rfl quiet (fun d => ?_) fun d => ?_
  · by_cases same : d = c
    · exact same ▸ nest
    · exact held.nest d same
  · show update s.phase c .running d ≠ .committing
    by_cases same : d = c
    · rw [same, update_self]
      decide
    · rw [update_of_ne same]
      exact held.phase d same

end Steps

/-! ## Runs -/

variable {g}

theorem step_shape {s s' : Sys C D} {l : C × Act D} (shape : Shape s) (own : OwnBegin s l)
    (taken : step g s l = some s') : Shape s' := by
  obtain ⟨c, a⟩ := l
  cases a with
  | begin => exact begin_shape shape own taken
  | acquire => exact acquire_shape shape taken
  | update w kmallocs => exact update_shape shape taken
  | commit => exact (commit_shape shape taken).1
  | finish => exact finish_shape shape taken

/-- **Each context's outermost commit commits what that context recorded, and nothing
else**, whatever the interleaving, on every run on which only owners begin inside an
open transaction. -/
theorem transactions_isolated {sb : Sb D} (quiet : sb.Quiet) {ls : List (C × Act D)}
    {s : Sys C D} (own : Guarded (step g) OwnBegin (idle sb) ls)
    (ran : run (step g) (idle sb) ls = some s) (c : C) :
    (∀ s', step g s (c, .commit) = some s' → (s'.nest c = 0 ↔ s'.phase c = .committing)) ∧
    (0 < s.nest c ∨ s.phase c = .committing →
      s.sb.tx = recordAll [] (s.mine c) ∧ ∀ c', c' ≠ c → s.nest c' = 0) := by
  have start : Shape (idle sb : Sys C D) :=
    .free rfl quiet (fun _ => rfl) fun _ => by
      show Phase.running ≠ .committing
      decide
  have shape : Shape s :=
    run_inv (fun _ _ _ shape own taken => step_shape shape own taken) start own ran
  refine ⟨fun s' taken => (commit_shape shape taken).2, fun inside => ?_⟩
  rcases inside with nested | closing
  · obtain ⟨held, _⟩ := shape.open_of_inside nested
    exact ⟨held.tx, held.nest⟩
  · obtain ⟨held, _⟩ := shape.closing_of_committing closing
    exact ⟨held.tx, held.nest⟩

/-! ## Poles -/

/-- Two contexts ask for the lock; the first records a block and commits it. -/
def taken : List (Bool × Act PlainBlock) :=
  [(false, .begin), (true, .begin), (false, .acquire), (false, .update (51, .data 1) true),
    (false, .commit)]

theorem transactions_isolated_waiting :
    ∃ s, run (step smallGeometry) (idle mountedSb) taken = some s ∧
      s.phase false = .committing ∧ s.phase true = .waiting ∧ s.mine false = [(51, .data 1)] ∧
      s.sb.tx = recordAll [] (s.mine false) ∧ ∀ c', c' ≠ false → s.nest c' = 0 := by
  have quiet : mountedSb.Quiet := ⟨rfl, rfl, rfl, rfl⟩
  have own : Guarded (step smallGeometry) OwnBegin (idle mountedSb : Sys Bool PlainBlock) taken :=
    .cons (.inl rfl) rfl (.cons (.inl rfl) rfl (.cons trivial rfl (.cons trivial rfl
      (.cons trivial rfl trivial))))
  exact ⟨_, rfl, rfl, rfl, rfl, (transactions_isolated quiet own rfl false).2 (.inr rfl)⟩

/-- The second context begins while the first is in its transaction. -/
def joined : List (Bool × Act PlainBlock) :=
  [(false, .begin), (false, .acquire), (false, .update (51, .data 1) true), (true, .begin),
    (true, .update (52, .data 2) true)]

/-- **A second context joins the open transaction**: the first one's outermost commit
returns with its block uncommitted, and the second one's commits the blocks of both. -/
theorem joined_transaction :
    ∃ s s₁ s₂, mountedSb.Quiet ∧ run (step smallGeometry) (idle mountedSb) joined = some s ∧
      s.mine false = [(51, .data 1)] ∧
      step smallGeometry s (false, .commit) = some s₁ ∧
      s₁.nest false = 0 ∧ s₁.phase false = .running ∧
      step smallGeometry s₁ (true, .commit) = some s₂ ∧
      s₂.phase true = .committing ∧ s₂.sb.tx = [(51, .data 1), (52, .data 2)] :=
  ⟨_, _, _, ⟨rfl, rfl, rfl, rfl⟩, rfl, rfl, rfl, rfl, rfl, rfl, rfl, rfl⟩

end Argentum.Agfs.TxIsolation
