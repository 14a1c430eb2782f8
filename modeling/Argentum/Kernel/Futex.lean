/-
# Kernel.Futex — how long a `FUTEX_WAIT` with a timeout sleeps

`futexWait` is the `FUTEX_WAIT` case of `sys_futex` up to the sleep, `tick` the
timeout part of `irq_timer_bh`, `futexReturn` the answer after the wake-up. The
conversion multiplies the `int` nanoseconds by `HZ` before it divides. A product
that is no `int` is undefined in C: the model has no result then.
`timeout_sound_iff` says for which times the wait is defined, ends, not early,
and in the order of the requests.
-/
import Argentum.Kernel.Errno
import Mathlib.Algebra.Group.Nat.Defs
import Mathlib.Tactic.NormNum

namespace Argentum.Kernel.Futex

/-- `tv_sec` is unsigned. -/
structure Timespec where
  sec : Nat
  nsec : Int

namespace Timespec

variable (t : Timespec)

/-- The nanoseconds after the special case for less than 10 ms, times `HZ`. -/
def scaled : Int := (if t.nsec < 10000000 then t.nsec * 10 else t.nsec) * 100

/-- `ticks` is an `unsigned int`; `none` where the product overflows. -/
def ticks : Option Nat :=
  if t.scaled < 2147483648 then some ((t.sec * 100 + (t.scaled / 1000000000).toNat) % 4294967296)
  else none

abbrev Rejected : Prop := t.nsec ≥ 1000000000 ∨ t.nsec < 0

end Timespec

structure Proc where
  timeout : Nat
  asleep : Bool

/-- Both looks at the word see `word`. -/
def futexWait (word val : Int) (timeout : Option Timespec) : Option (Except Errno Proc) :=
  if word ≠ val then some (.error .eagain)
  else match timeout with
    | none => some (.ok ⟨0, true⟩)
    | some t =>
      if t.Rejected then some (.error .einval) else t.ticks.map fun ticks => .ok ⟨ticks, true⟩

/-- `INFINITE_WAIT` is not counted down. -/
def tick (p : Proc) : Proc :=
  if 0 < p.timeout ∧ p.timeout < 0xFFFFFFFF then
    ⟨p.timeout - 1, p.asleep && p.timeout - 1 ≠ 0⟩
  else p

/-- What the call armed with `ticks` answers once `p` runs again. -/
def futexReturn (ticks : Nat) (p : Proc) : Except Errno Unit :=
  if ticks ≠ 0 ∧ p.timeout = 0 then .error .etimedout else .ok ()

/-- Nobody wakes the waiter: it sleeps through `n` ticks and then times out. -/
def TimesOut (word : Int) (t : Timespec) (n : Nat) : Prop :=
  ∃ p, futexWait word word (some t) = some (.ok p) ∧ (∀ m < n, (tick^[m] p).asleep) ∧
    ¬ (tick^[n] p).asleep ∧ futexReturn p.timeout (tick^[n] p) = .error .etimedout

/-! ## The countdown -/

theorem iterate_tick (n m : Nat) (finite : n < 0xFFFFFFFF) (within : m ≤ n) (armed : 0 < n) :
    tick^[m] ⟨n, true⟩ = ⟨n - m, m < n⟩ := by
  induction m with
  | zero => simp [armed]
  | succ m ih =>
    rw [Function.iterate_succ_apply', ih (by omega)]
    have live : 0 < n - m ∧ n - m < 0xFFFFFFFF := by omega
    simp only [tick, live, and_self, if_true, Proc.mk.injEq, Bool.and_eq_decide]
    grind

theorem timesOut_iff (word : Int) (t : Timespec) (n : Nat) (accepted : ¬ t.Rejected) :
    TimesOut word t n ↔ t.ticks = some n ∧ 0 < n ∧ n < 0xFFFFFFFF := by
  have start : futexWait word word (some t) = t.ticks.map fun ticks => .ok ⟨ticks, true⟩ := by
    simp [futexWait, accepted]
  constructor
  · rintro ⟨p, waits, asleep, woken, -⟩
    obtain ⟨ticks, armed, same⟩ := Option.map_eq_some_iff.mp (start.symm.trans waits)
    obtain rfl : ⟨ticks, true⟩ = p := Except.ok.inj same
    by_cases live : 0 < ticks ∧ ticks < 0xFFFFFFFF
    · rcases Nat.lt_trichotomy n ticks with early | rfl | late
      · simp [iterate_tick _ n live.2 early.le live.1, early] at woken
      · exact ⟨armed, live⟩
      · simpa [iterate_tick _ _ live.2 le_rfl live.1] using asleep _ late
    · have fixed : tick ⟨ticks, true⟩ = ⟨ticks, true⟩ := if_neg live
      simp [Function.iterate_fixed fixed] at woken
  · rintro ⟨ticks, armed, finite⟩
    rw [ticks, Option.map_some] at start
    refine ⟨_, start, fun m before => ?_, ?_, ?_⟩
    · simp [iterate_tick _ m finite before.le armed, before]
    · simp [iterate_tick _ _ finite le_rfl armed]
    · simp [iterate_tick _ _ finite le_rfl armed, futexReturn, armed.ne']

/-! ## The conversion -/

namespace Timespec

variable (t u : Timespec)

/-- The request in nanoseconds; a tick is 10 ms. -/
def duration : Int := t.sec * 1000000000 + t.nsec

/-- The timespecs whose wait is defined, ends and is not too short. -/
def Kept : Prop :=
  (t.nsec = 0 ∧ 0 < t.sec) ∨ (1000000 ≤ t.nsec ∧ t.nsec ≤ 2147483) ∨ t.nsec = 10000000 ∨
    t.nsec = 20000000

/-- Within one second, 2 ms get two ticks and 10 ms get one. -/
def InOrder : Prop :=
  t.sec = u.sec → 2000000 ≤ t.nsec → t.nsec < 10000000 → u.nsec ≠ 10000000

end Timespec

/-- The wait for `t` ends, after ticks that last at least as long as `t`. -/
def Sound (word : Int) (t : Timespec) : Prop :=
  ∃ n, TimesOut word t n ∧ t.duration ≤ n * 10000000

open Timespec

section Pair

variable (word : Int) (t u : Timespec) (accepted : ¬ t.Rejected) (bounded : t.sec ≤ 1000000)

include accepted bounded

theorem ticks_of_kept (kept : t.Kept) :
    t.ticks = some (t.sec * 100 + (t.scaled / 1000000000).toNat) := by
  unfold Timespec.Kept at kept
  have small : t.scaled < 2147483648 := by
    unfold scaled
    split <;> omega
  rw [ticks, if_pos small, Nat.mod_eq_of_lt (by omega)]

theorem sound_iff : Sound word t ↔ t.Kept := by
  simp only [Sound, timesOut_iff word t _ accepted]
  constructor
  · rintro ⟨n, ⟨armed, positive, -⟩, enough⟩
    obtain ⟨small, value⟩ := Option.ite_none_right_eq_some.mp armed
    obtain rfl := Option.some.inj value
    unfold duration at enough
    unfold scaled at small positive enough
    unfold Timespec.Kept
    split at small <;> omega
  · intro kept
    refine ⟨_, ⟨ticks_of_kept t accepted bounded kept, ?_⟩, ?_⟩
    · unfold Timespec.Kept at kept
      unfold scaled
      split <;> omega
    · unfold Timespec.Kept at kept
      unfold duration scaled
      split <;> omega

/-- **Futex timeouts.** Two requests are both waited for long enough and in
their order iff their nanoseconds survive the conversion. -/
theorem timeout_sound_iff (accepted' : ¬ u.Rejected) (bounded' : u.sec ≤ 1000000)
    (longer : t.duration ≤ u.duration) :
    (Sound word t ∧ Sound word u ∧ ∀ n m, TimesOut word t n → TimesOut word u m → n ≤ m) ↔
      t.Kept ∧ u.Kept ∧ t.InOrder u := by
  rw [sound_iff word t accepted bounded, sound_iff word u accepted' bounded']
  simp only [and_congr_right_iff]
  intro first second
  have ticks := ticks_of_kept t accepted bounded first
  have ticks' := ticks_of_kept u accepted' bounded' second
  obtain ⟨n, ends, -⟩ := (sound_iff word t accepted bounded).mpr first
  obtain ⟨m, ends', -⟩ := (sound_iff word u accepted' bounded').mpr second
  have order : (∀ n m, TimesOut word t n → TimesOut word u m → n ≤ m) ↔ n ≤ m := by
    simp only [timesOut_iff, accepted, accepted', not_false_eq_true] at ends ends' ⊢
    rw [ends.1, ends'.1]
    constructor
    · exact fun ordered => ordered _ _ ⟨rfl, ends.2⟩ ⟨rfl, ends'.2⟩
    · rintro le _ _ ⟨⟨⟩, -⟩ ⟨⟨⟩, -⟩
      exact le
  rw [timesOut_iff word t n accepted, ticks] at ends
  rw [timesOut_iff word u m accepted', ticks'] at ends'
  rw [order, ← Option.some.inj ends.1, ← Option.some.inj ends'.1]
  unfold duration at longer
  unfold Timespec.Kept at first second
  unfold Timespec.InOrder scaled
  split <;> split <;> omega

end Pair

/-! ## Poles -/

/-- A wait for 15 ms ends after one tick; one for 2 ms takes two, one for 10 ms takes one. -/
theorem fifteen_ms_early :
    (¬ (⟨0, 15000000⟩ : Timespec).Rejected ∧ TimesOut 0 ⟨0, 15000000⟩ 1 ∧
      (⟨0, 15000000⟩ : Timespec).duration > 1 * 10000000) ∧
    TimesOut 0 ⟨0, 2000000⟩ 2 ∧ TimesOut 0 ⟨0, 10000000⟩ 1 := by
  refine ⟨⟨by decide, ?_, by decide⟩, ?_, ?_⟩ <;>
    exact (timesOut_iff _ _ _ (by decide)).mpr (by decide)

theorem two_seconds : Sound 0 ⟨2, 2000000⟩ ∧ Sound 0 ⟨2, 20000000⟩ ∧
    ∀ n m, TimesOut 0 ⟨2, 2000000⟩ n → TimesOut 0 ⟨2, 20000000⟩ m → n ≤ m :=
  (timeout_sound_iff 0 ⟨2, 2000000⟩ ⟨2, 20000000⟩ (by decide) (by decide) (by decide) (by decide)
    (by decide)).mpr (by
      unfold Timespec.Kept Timespec.InOrder
      decide)

end Argentum.Kernel.Futex
