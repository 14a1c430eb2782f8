/-
# Lib.WriteLog — a store changed by a list of writes

A store is a function from addresses to values; a write log is the list of the
writes made to it, oldest first. `putAll` is the store after a log.

The rule that carries recovery arguments is `putAll_absorb`: two stores that differ only at
addresses the log writes become equal once the log is applied.
-/
import Mathlib.Data.Finset.Card

namespace Argentum.Lib.WriteLog

open List

variable {A V : Type} {P : (A → V) → Prop} {Q : (A → V) → A × V → Prop} {a : A} {m : A → V}
  {vs ws : List (A × V)} {w : A × V}

/-- The addresses a log writes. -/
def keys (ws : List (A × V)) : List A := ws.map Prod.fst

@[simp] theorem keys_nil : keys ([] : List (A × V)) = [] := rfl

@[simp] theorem keys_cons (w : A × V) (ws : List (A × V)) : keys (w :: ws) = w.1 :: keys ws := rfl

@[simp] theorem keys_append (ws vs : List (A × V)) : keys (ws ++ vs) = keys ws ++ keys vs := by
  simp [keys]

theorem mem_keys : a ∈ keys ws ↔ ∃ v, (a, v) ∈ ws := by
  simp [keys]

variable [DecidableEq A] {m' : A → V}

def put (m : A → V) (w : A × V) : A → V := Function.update m w.1 w.2

/-- The store after a log of writes, oldest first. -/
def putAll (m : A → V) (ws : List (A × V)) : A → V := ws.foldl put m

theorem put_same (m : A → V) (a : A) (v : V) : put m (a, v) a = v := by simp [put]

theorem put_of_ne (m : A → V) {b : A} (v : V) (ne : b ≠ a) : put m (a, v) b = m b := by
  simp [put, ne]

theorem put_self (same : m w.1 = w.2) : put m w = m := by
  rw [put, ← same, Function.update_eq_self]

@[simp] theorem putAll_nil (m : A → V) : putAll m [] = m := rfl

@[simp] theorem putAll_cons (m : A → V) (w : A × V) (ws : List (A × V)) :
    putAll m (w :: ws) = putAll (put m w) ws := rfl

theorem putAll_append (m : A → V) (ws vs : List (A × V)) :
    putAll m (ws ++ vs) = putAll (putAll m ws) vs := by
  simp [putAll]

theorem putAll_of_not_mem (m : A → V) (absent : a ∉ keys ws) : putAll m ws a = m a := by
  induction ws generalizing m with
  | nil => rfl
  | cons w ws ih =>
    simp only [keys_cons, mem_cons, not_or] at absent
    rw [putAll_cons, ih (put m w) absent.2]
    exact put_of_ne m w.2 absent.1

/-- At a written address the store before the log does not matter. -/
theorem putAll_of_mem (m m' : A → V) (written : a ∈ keys ws) : putAll m ws a = putAll m' ws a := by
  induction ws generalizing m m' with
  | nil => simp at written
  | cons w ws ih =>
    rw [putAll_cons, putAll_cons]
    by_cases later : a ∈ keys ws
    · exact ih _ _ later
    · have here : a = w.1 := by simpa [later] using written
      rw [putAll_of_not_mem _ later, putAll_of_not_mem _ later, here]
      simp [put]

theorem putAll_congr (same : a ∉ keys ws → m a = m' a) : putAll m ws a = putAll m' ws a := by
  by_cases written : a ∈ keys ws
  · exact putAll_of_mem m m' written
  · rw [putAll_of_not_mem m written, putAll_of_not_mem m' written, same written]

/-- Stores that differ only where the log writes agree after the log. -/
theorem putAll_absorb (same : ∀ a, a ∉ keys ws → m a = m' a) : putAll m ws = putAll m' ws :=
  funext fun a => putAll_congr (same a)

/-- Applying a log twice is applying it once. -/
theorem putAll_idem (m : A → V) (ws : List (A × V)) : putAll (putAll m ws) ws = putAll m ws :=
  putAll_absorb fun _ absent => putAll_of_not_mem m absent

/-- A written address holds one of the values the log has for it. -/
theorem putAll_mem (m : A → V) (written : a ∈ keys ws) : (a, putAll m ws a) ∈ ws := by
  induction ws generalizing m with
  | nil => simp at written
  | cons w ws ih =>
    rw [putAll_cons]
    by_cases later : a ∈ keys ws
    · exact mem_cons_of_mem _ (ih _ later)
    · have here : a = w.1 := by simpa [later] using written
      rw [putAll_of_not_mem _ later]
      subst here
      simp [put]

/-- When every write of a log already agrees with one store, so does the result. -/
theorem putAll_eq_of_forall {t : A → V}
    (writes : ∀ v, (a, v) ∈ ws → v = t a) (start : a ∉ keys ws → m a = t a) :
    putAll m ws a = t a := by
  by_cases written : a ∈ keys ws
  · exact writes _ (putAll_mem m written)
  · rw [putAll_of_not_mem m written, start written]

/-! ## Every store on the way -/

/-- `P` holds of the store after every prefix of the log, the empty one included. -/
def Throughout (P : (A → V) → Prop) (m : A → V) (ws : List (A × V)) : Prop :=
  ∀ k, P (putAll m (ws.take k))

theorem throughout_nil (start : P m) : Throughout P m [] :=
  fun k => by simpa using start

theorem throughout_cons
    (start : P m) (rest : Throughout P (put m w) ws) : Throughout P m (w :: ws) := fun k => by
  cases k with
  | zero => exact start
  | succ k => exact rest k

theorem throughout_append (first : Throughout P m ws) (rest : Throughout P (putAll m ws) vs) :
    Throughout P m (ws ++ vs) := by
  induction ws generalizing m with
  | nil => exact rest
  | cons w ws ih => exact throughout_cons (first 0) (ih (fun k => first (k + 1)) rest)

theorem Throughout.mono {Q : (A → V) → Prop}
    (through : Throughout P m ws) (weaker : ∀ m, P m → Q m) : Throughout Q m ws :=
  fun k => weaker _ (through k)

/-- The store the whole log leaves is on the way. -/
theorem Throughout.last (through : Throughout P m ws) : P (putAll m ws) := by
  simpa using through ws.length

/-- `Q` holds of each write and the store it finds. -/
def EachWrite (Q : (A → V) → A × V → Prop) : (A → V) → List (A × V) → Prop
  | _, [] => True
  | m, w :: ws => Q m w ∧ EachWrite Q (put m w) ws

theorem eachWrite_append :
    EachWrite Q m (ws ++ vs) ↔ EachWrite Q m ws ∧ EachWrite Q (putAll m ws) vs := by
  induction ws generalizing m with
  | nil => simp [EachWrite]
  | cons w ws ih => simp only [cons_append, EachWrite, putAll_cons, ih, and_assoc]

theorem EachWrite.take (each : EachWrite Q m ws) (k : Nat) : EachWrite Q m (ws.take k) := by
  rw [← take_append_drop k ws, eachWrite_append] at each
  exact each.1

theorem EachWrite.head (each : EachWrite Q m ws) (first : ws.head? = some w) : Q m w := by
  cases ws with
  | nil => cases first
  | cons v ws =>
    cases first
    exact each.1

/-- A property that the writes of a log keep is there at each of them. -/
theorem eachWrite_of_inv {I : (A → V) → Prop}
    (start : I m) (kept : ∀ m, I m → ∀ w ∈ ws, Q m w ∧ I (put m w)) :
    EachWrite Q m ws := by
  induction ws generalizing m with
  | nil => trivial
  | cons w ws ih =>
    obtain ⟨here, next⟩ := kept m start w mem_cons_self
    exact ⟨here, ih next fun m inv v member => kept m inv v (mem_cons_of_mem _ member)⟩

/-! ## Logs that keep one write for each address -/

/-- Record a write: replace the value of an address the log already holds, or
append. The value of every address is the last one recorded for it. -/
def record (ws : List (A × V)) (w : A × V) : List (A × V) :=
  if w.1 ∈ keys ws then ws.map fun p => if p.1 = w.1 then w else p else ws ++ [w]

theorem keys_record (ws : List (A × V)) (w : A × V) :
    keys (record ws w) = if w.1 ∈ keys ws then keys ws else keys ws ++ [w.1] := by
  unfold record
  split
  · simp only [keys, map_map]
    refine map_congr_left fun p _ => ?_
    simp only [Function.comp]
    split
    · exact (‹p.1 = w.1›).symm
    · rfl
  · simp

theorem record_length_le (ws : List (A × V)) (w : A × V) : ws.length ≤ (record ws w).length := by
  unfold record
  split <;> simp

theorem record_length_of_not_mem (absent : w.1 ∉ keys ws) :
    (record ws w).length = ws.length + 1 := by
  simp [record, absent]

theorem mem_keys_record : a ∈ keys (record ws w) ↔ a ∈ keys ws ∨ a = w.1 := by
  rw [keys_record]
  split
  · rename_i present
    constructor
    · exact .inl
    · rintro (old | rfl)
      · exact old
      · exact present
  · simp

theorem mem_record {v : A × V} (member : v ∈ record ws w) : v = w ∨ v ∈ ws ∧ v.1 ≠ w.1 := by
  unfold record at member
  split at member
  · obtain ⟨p, found, rfl⟩ := mem_map.mp member
    split
    · exact .inl rfl
    · rename_i other
      exact .inr ⟨found, other⟩
  · rename_i absent
    rcases mem_append.mp member with old | new
    · exact .inr ⟨old, fun same => absent (mem_keys.mpr ⟨v.2, same ▸ old⟩)⟩
    · exact .inl (mem_singleton.mp new)

theorem record_nodup (nodup : (keys ws).Nodup) (w : A × V) : (keys (record ws w)).Nodup := by
  rw [keys_record]
  split
  · exact nodup
  rename_i absent
  exact nodup_append.mpr ⟨nodup, by simp, by
    intro a old b new
    rw [mem_singleton] at new
    subst new
    exact fun same => absent (same ▸ old)⟩

/-- In a log with one write per address, the log's value is what the store holds. -/
theorem putAll_of_nodup (m : A → V) (nodup : (keys ws).Nodup) {v : V}
    (member : (a, v) ∈ ws) : putAll m ws a = v := by
  induction ws generalizing m with
  | nil => simp at member
  | cons w ws ih =>
    rw [keys_cons, nodup_cons] at nodup
    rw [putAll_cons]
    rcases mem_cons.mp member with rfl | later
    · rw [putAll_of_not_mem _ nodup.1]
      simp [put]
    · exact ih _ nodup.2 later

/-- Recording a write changes the resulting store as the write does. -/
theorem putAll_record (m : A → V) (nodup : (keys ws).Nodup) (w : A × V) :
    putAll m (record ws w) = put (putAll m ws) w := by
  funext a
  have distinct := record_nodup nodup w
  by_cases present : w.1 ∈ keys ws
  · have shape : record ws w = ws.map fun p => if p.1 = w.1 then w else p := if_pos present
    by_cases here : a = w.1
    · subst here
      rw [show put (putAll m ws) w w.1 = w.2 by simp [put]]
      refine putAll_of_nodup m distinct ?_
      obtain ⟨v, member⟩ := mem_keys.mp present
      rw [shape]
      exact mem_map.mpr ⟨(w.1, v), member, by simp⟩
    · rw [show put (putAll m ws) w a = putAll m ws a from put_of_ne _ _ here]
      by_cases old : a ∈ keys ws
      · refine putAll_of_nodup m distinct ?_
        rw [shape]
        exact mem_map.mpr ⟨_, putAll_mem m old, by simp [here]⟩
      · rw [putAll_of_not_mem m old, putAll_of_not_mem m]
        rw [mem_keys_record]
        exact not_or.mpr ⟨old, here⟩
  · rw [record, if_neg present, putAll_append]
    rfl

/-- The log left by recording a list of writes one after the other. -/
def recordAll (ws vs : List (A × V)) : List (A × V) := vs.foldl record ws

theorem recordAll_length_le (ws vs : List (A × V)) : ws.length ≤ (recordAll ws vs).length := by
  induction vs generalizing ws with
  | nil => exact Nat.le_refl _
  | cons v vs ih => exact (record_length_le ws v).trans (ih _)

theorem recordAll_nodup (nodup : (keys ws).Nodup) (vs : List (A × V)) :
    (keys (recordAll ws vs)).Nodup := by
  induction vs generalizing ws with
  | nil => exact nodup
  | cons v vs ih => exact ih (record_nodup nodup v)

theorem mem_keys_recordAll : a ∈ keys (recordAll ws vs) ↔ a ∈ keys ws ∨ a ∈ keys vs := by
  induction vs generalizing ws with
  | nil => simp [recordAll]
  | cons v vs ih =>
    rw [recordAll, foldl_cons, ← recordAll, ih, mem_keys_record, keys_cons, mem_cons, or_assoc]

theorem putAll_recordAll (m : A → V) (nodup : (keys ws).Nodup)
    (vs : List (A × V)) : putAll m (recordAll ws vs) = putAll (putAll m ws) vs := by
  induction vs generalizing ws with
  | nil => rfl
  | cons v vs ih =>
    rw [recordAll, foldl_cons, ← recordAll, ih (record_nodup nodup v), putAll_record m nodup,
      putAll_cons]

/-- As many writes are kept as there were addresses. -/
theorem recordAll_length (vs : List (A × V)) :
    (recordAll [] vs).length = (keys vs).toFinset.card := by
  have nodup : (keys (recordAll [] vs)).Nodup := recordAll_nodup (by simp) vs
  have same : (keys (recordAll [] vs)).toFinset = (keys vs).toFinset := by
    ext a
    simp [mem_keys_recordAll]
  rw [← same, toFinset_card_of_nodup nodup, keys, length_map]

end Argentum.Lib.WriteLog
