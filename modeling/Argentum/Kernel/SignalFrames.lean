/-
# Kernel.SignalFrames — what the return from a handler restores

`psig` starts a handler with the user context saved in the slot of its signal,
`rt_sigreturn` ends the innermost one. Without blocked deliveries every return
restores the context, but the mask only while `sigexecuting`, the one word for
all handlers, is not cleared by another return (`return_restores_iff`).
-/
import Argentum.Kernel.Signal

namespace Argentum.Kernel.SignalFrames

open Lib.Machine Signal List Function SigSet

/-- An active handler, with the mask and the context of its start. -/
structure Frame (C : Type) where
  signum : Nat
  mask : SigSet
  context : C

structure Sys (C : Type) where
  proc : Proc
  context : C
  /-- `current->sc`. -/
  saved : Nat → C
  /-- The innermost one first. -/
  frames : List (Frame C)

inductive Label (C : Type) where
  /-- `psig` starts the handler, which begins in the context `entry`. -/
  | deliver (signum : Nat) (entry : C)
  | user (context : C)
  | sigreturn

variable {C : Type}

def step (s : Sys C) : Label C → Option (Sys C)
  | .deliver signum entry =>
    if signum ∈ signals ∧ (s.proc.action signum).handler ≠ .dfl ∧
        (s.proc.action signum).flags &&& saNoDefer = 0 then
      some ⟨(s.proc.clear signum).startHandler signum true true, entry,
        update s.saved signum s.context, ⟨signum, s.proc.blocked, s.context⟩ :: s.frames⟩
    else none
  | .user context => some { s with context }
  | .sigreturn => match s.frames with
    | [] => none
    | f :: rest => some ⟨s.proc.rtSigreturn f.signum, s.saved f.signum, s.saved, rest⟩

/-- No blocked signal is delivered. -/
def Unblocked (s : Sys C) : Label C → Prop
  | .deliver signum _ => s.proc.blocked.has signum = false
  | _ => True

structure Kept (saved : Nat → C) (blocked : SigSet) (f : Frame C) : Prop where
  range : f.signum ∈ signals
  context : saved f.signum = f.context
  before : f.mask.has f.signum = false
  blocked : blocked.has f.signum = true

/-- `sigexecuting` belongs to the innermost handler until another one has returned. -/
structure Inv (s : Sys C) : Prop where
  kept : ∀ f ∈ s.frames, Kept s.saved s.proc.blocked f
  distinct : (s.frames.map (·.signum)).Nodup
  word : ∀ f ∈ s.frames.head?, s.proc.executing = 0 ∨
    (s.proc.executing = bit f.signum ∧ s.proc.blocked = f.mask ||| bit f.signum)

theorem has_bit {signum : Nat} (range : signum ∈ signals) : (bit signum).has signum = true := by
  have small := mem_signals.mp range
  unfold nsig at small
  simp [has, bit]
  omega

theorem clear_bit {mask : SigSet} {signum : Nat} (before : mask.has signum = false) :
    (mask ||| bit signum) &&& ~~~bit signum = mask := by
  apply BitVec.eq_of_getLsbD_eq
  intro i small
  unfold has at before
  by_cases same : signum - 1 = i
  · simp [bit, ← same, before]
  · simp [bit, Ne.symm same, small]

variable {s s' : Sys C} {f : Frame C} {rest : List (Frame C)}

theorem Inv.deliver (inv : Inv s) {signum : Nat} {entry : C}
    (fresh : s.proc.blocked.has signum = false)
    (taken : step s (.deliver signum entry) = some s') : Inv s' := by
  obtain ⟨⟨range, -, defer⟩, rfl⟩ := when_eq_some.mp taken
  have other : ∀ f ∈ s.frames, f.signum ≠ signum := by
    rintro f active rfl
    simp [(inv.kept f active).blocked] at fresh
  have blocked : ((s.proc.clear signum).startHandler signum true true).blocked =
      s.proc.blocked ||| bit signum := by
    simp [Proc.startHandler, Proc.clear, defer]
  refine ⟨?_, by simpa using ⟨other, inv.distinct⟩, ?_⟩
  · rw [blocked]
    refine forall_mem_cons.mpr ⟨⟨range, update_self .., fresh, ?_⟩, fun g old => ?_⟩
    · rw [BitVec.or_comm]
      exact has_or (has_bit range) _
    · obtain ⟨range, context, before, held⟩ := inv.kept g old
      exact ⟨range, (update_of_ne (other g old) ..).trans context, before, has_or held _⟩
  · rintro f ⟨⟩
    exact .inr ⟨rfl, blocked⟩

theorem Inv.sigreturn (inv : Inv s) (frames : s.frames = f :: rest)
    (taken : step s .sigreturn = some s') :
    Inv s' ∧ s'.context = f.context ∧ (s'.proc.blocked = f.mask ↔ s.proc.executing ≠ 0) := by
  simp only [step, frames, Option.some.injEq] at taken
  obtain ⟨keptAll, distinct, word⟩ := inv
  rw [frames] at keptAll distinct word
  obtain ⟨absent, distinct⟩ := nodup_cons.mp distinct
  obtain ⟨kept, others⟩ := forall_mem_cons.mp keptAll
  have range := mem_signals.mp kept.range
  rw [Proc.rtSigreturn, if_neg (by omega)] at taken
  subst taken
  -- the mask afterwards, by whether the word still belongs to this handler
  have mask : (s.proc.blocked &&& ~~~s.proc.executing = f.mask ↔ s.proc.executing ≠ 0) ∧
      ∀ g ∈ rest, (s.proc.blocked &&& ~~~s.proc.executing).has g.signum = true := by
    rcases word f rfl with cleared | ⟨executing, blocked⟩
    · rw [cleared, show ~~~(0 : SigSet) = BitVec.allOnes 32 from rfl, BitVec.and_allOnes]
      refine ⟨iff_of_false (fun same => ?_) (not_not.mpr rfl), fun g active => ?_⟩
      · have before := kept.before
        simp [← same, kept.blocked] at before
      · exact (others g active).blocked
    · have held := has_bit kept.range
      rw [executing]
      refine ⟨iff_of_true (blocked ▸ clear_bit kept.before) fun zero => ?_, fun g active => ?_⟩
      · simp [zero, has] at held
      · have held := others g active
        refine has_clear held.blocked held.range range.1 fun same => absent ?_
        exact mem_map.mpr ⟨g, active, same⟩
  refine ⟨⟨fun g active => ?_, distinct, fun _ _ => .inl rfl⟩, kept.context, mask.1⟩
  have held := others g active
  exact ⟨held.range, held.context, held.before, mask.2 g active⟩

theorem step_inv (a : Label C) (inv : Inv s) (fresh : Unblocked s a)
    (taken : step s a = some s') : Inv s' := by
  cases a with
  | deliver signum entry => exact inv.deliver fresh taken
  | user context =>
    cases taken
    exact ⟨inv.kept, inv.distinct, inv.word⟩
  | sigreturn =>
    cases frames : s.frames with
    | nil => simp [step, frames] at taken
    | cons f rest => exact (inv.sigreturn frames taken).1

/-- **Nested handlers.** In every run that delivers no blocked signal, each return
restores the context of the handler's start, and the mask iff no other return
has cleared `sigexecuting` since. -/
theorem return_restores_iff (start : Sys C) (labels : List (Label C)) (idle : start.frames = [])
    (fresh : Guarded step Unblocked start labels) (ran : run step start labels = some s)
    (frames : s.frames = f :: rest) (taken : step s .sigreturn = some s') :
    s'.context = f.context ∧ (s'.proc.blocked = f.mask ↔ s.proc.executing ≠ 0) := by
  have inv : Inv start := by
    constructor <;> simp [idle]
  exact ((run_inv (fun _ a _ => step_inv a) inv fresh ran).sigreturn frames taken).2

/-! ## Poles -/

/-- `SIGUSR1` and `SIGUSR2` have handlers. -/
def ready : Sys Nat := ⟨{ handlers with blocked := 0 }, 1, fun _ => 0, []⟩

/-- `SIGUSR2` is delivered in the handler of `SIGUSR1`. -/
def nested : List (Label Nat) := [.deliver 10 2, .deliver 12 3]

theorem nested_fresh : Guarded step Unblocked ready (nested ++ [.sigreturn]) :=
  ⟨show has 0 10 = false by decide, fun _ taken => by
    cases taken
    exact ⟨show has (bit 10) 12 = false by decide, fun _ _ => ⟨trivial, fun _ _ => trivial⟩⟩⟩

/-- Both returns of a nested pair. -/
theorem nested_returns :
    (∃ s s', run step ready nested = some s ∧ step s .sigreturn = some s' ∧
      s'.context = 2 ∧ (s'.proc.blocked = bit 10 ↔ s.proc.executing ≠ 0)) ∧
    ∃ s s', run step ready (nested ++ [.sigreturn]) = some s ∧ step s .sigreturn = some s' ∧
      s'.context = 1 ∧ (s'.proc.blocked = 0 ↔ s.proc.executing ≠ 0) :=
  ⟨⟨_, _, rfl, rfl, return_restores_iff ready nested rfl nested_fresh.append_left rfl rfl rfl⟩,
    _, _, rfl, rfl, return_restores_iff ready _ rfl nested_fresh rfl rfl rfl⟩

/-- The return from `SIGUSR2` inside leaves `SIGUSR1` blocked for good. -/
theorem usr1_stays_blocked :
    (run step ready [.deliver 10 2, .deliver 12 3, .sigreturn, .sigreturn]).map
      (fun s => (s.context, s.proc.blocked, s.frames.length)) = some (1, bit 10, 0) := by
  decide +kernel

end Argentum.Kernel.SignalFrames
