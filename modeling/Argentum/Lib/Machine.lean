/-
# Lib.Machine — runs of a partial step function

A machine is a step function that may refuse a label. `run` takes a list of
labels; `Guarded` says that every label of the list meets a condition in the
state it is taken from. What holds at the start and survives every guarded step
holds after every guarded run (`run_inv`); `run_keeps` is the case without a
guard.
-/
import Mathlib.Data.List.Basic

namespace Argentum.Lib.Machine

variable {σ α : Type} (step : σ → α → Option σ)

def run : σ → List α → Option σ
  | s, [] => some s
  | s, a :: rest => (step s a).bind fun s' => run s' rest

/-- Every label meets `guard` in the state it is taken from. -/
def Guarded (guard : σ → α → Prop) : σ → List α → Prop
  | _, [] => True
  | s, a :: rest => guard s a ∧ ∀ s', step s a = some s' → Guarded guard s' rest

@[simp] theorem run_nil (s : σ) : run step s [] = some s := rfl

variable {step} {as : List α} {guard : σ → α → Prop} {s s' : σ}

theorem when_eq_some {p : Prop} [Decidable p] :
    (if p then some s else none) = some s' ↔ p ∧ s = s' := by
  rw [Option.ite_none_right_eq_some, Option.some.injEq]

theorem unless_eq_some {p : Prop} [Decidable p] :
    (if p then none else some s) = some s' ↔ ¬ p ∧ s = s' := by
  rw [Option.ite_none_left_eq_some, Option.some.injEq]

theorem Guarded.cons {a : α} {rest : List α} (safe : guard s a)
    (taken : step s a = some s') (tail : Guarded step guard s' rest) :
    Guarded step guard s (a :: rest) := by
  refine ⟨safe, fun t again => ?_⟩
  rw [taken, Option.some.injEq] at again
  exact again ▸ tail

theorem Guarded.append_left {bs : List α}
    (guarded : Guarded step guard s (as ++ bs)) : Guarded step guard s as := by
  induction as generalizing s with
  | nil => trivial
  | cons a as ih => exact ⟨guarded.1, fun s' taken => ih (guarded.2 s' taken)⟩

theorem Guarded.append_right {bs : List α}
    (guarded : Guarded step guard s (as ++ bs)) (ran : run step s as = some s') :
    Guarded step guard s' bs := by
  induction as generalizing s with
  | nil => cases ran; exact guarded
  | cons a as ih =>
    obtain ⟨s₁, taken, ran⟩ := Option.bind_eq_some_iff.mp ran
    exact ih (guarded.2 s₁ taken) ran

theorem Guarded.and {guard' : σ → α → Prop}
    (left : Guarded step guard s as) (right : Guarded step guard' s as) :
    Guarded step (fun s a => guard s a ∧ guard' s a) s as := by
  induction as generalizing s with
  | nil => trivial
  | cons a as ih =>
    exact ⟨⟨left.1, right.1⟩, fun s' taken => ih (left.2 s' taken) (right.2 s' taken)⟩

variable (step) in
/-- The guard tested along the one run that `as` makes from `s`. -/
def guardedTest (test : σ → α → Bool) : σ → List α → Bool
  | _, [] => true
  | s, a :: rest =>
    test s a && match step s a with
      | some s' => guardedTest test s' rest
      | none => true

theorem Guarded.of_test {test : σ → α → Bool} (sound : ∀ s a, test s a = true → guard s a)
    (passed : guardedTest step test s as = true) : Guarded step guard s as := by
  induction as generalizing s with
  | nil => trivial
  | cons a as ih =>
    rw [guardedTest, Bool.and_eq_true] at passed
    refine ⟨sound s a passed.1, fun s' taken => ih ?_⟩
    rw [taken] at passed
    exact passed.2

theorem Guarded.of_decide [∀ s a, Decidable (guard s a)]
    (passed : guardedTest step (fun s a => decide (guard s a)) s as = true) :
    Guarded step guard s as :=
  Guarded.of_test (fun _ _ => of_decide_eq_true) passed

theorem exists_run {P : σ → Prop} (ends : (run step s as).isSome = true)
    (holds : ∀ s', run step s as = some s' → P s') : ∃ s', run step s as = some s' ∧ P s' := by
  obtain ⟨s', ran⟩ := Option.isSome_iff_exists.mp ends
  exact ⟨s', ran, holds s' ran⟩

/-- What guarded steps keep, guarded runs keep. -/
theorem run_inv {I : σ → Prop}
    (kept : ∀ s a s', I s → guard s a → step s a = some s' → I s') {s s' : σ} {as : List α}
    (start : I s) (guarded : Guarded step guard s as) (ran : run step s as = some s') : I s' := by
  induction as generalizing s with
  | nil => cases ran; exact start
  | cons a as ih =>
    obtain ⟨s₁, taken, ran⟩ := Option.bind_eq_some_iff.mp ran
    exact ih (kept s a s₁ start guarded.1 taken) (guarded.2 s₁ taken) ran

/-- What all steps keep, all runs keep. -/
theorem run_keeps {I : σ → Prop} (kept : ∀ s a s', I s → step s a = some s' → I s') {s s' : σ}
    {as : List α} (start : I s) (ran : run step s as = some s') : I s' := by
  induction as generalizing s with
  | nil => cases ran; exact start
  | cons a as ih =>
    obtain ⟨s₁, taken, ran⟩ := Option.bind_eq_some_iff.mp ran
    exact ih (kept s a s₁ start taken) ran

end Argentum.Lib.Machine
