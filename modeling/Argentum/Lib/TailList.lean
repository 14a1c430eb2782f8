/-
# Lib.TailList — doubly linked lists whose head points back at the tail

A list is kept in the nodes themselves: `next` ends with nothing at the tail, `prev` of the
head is the tail, and a node that is in no list has neither. `insert` appends a node unless
it is linked, `remove` takes one out. `Represents k l` ties the pointers to the list that
they stand for; `insert` then appends to it and `remove` erases from it.
-/
import Mathlib.Data.List.Nodup

namespace Argentum.Lib

open List Function

structure Links (α : Type) where
  head : Option α
  prev : α → Option α
  next : α → Option α

open Links

namespace Links

variable {α : Type} [DecidableEq α]

def empty : Links α := ⟨none, fun _ => none, fun _ => none⟩

def linked (k : Links α) (a : α) : Bool := (k.prev a).isSome || (k.next a).isSome

/-- The memory of `a` is zeroed. -/
def clear (k : Links α) (a : α) : Links α :=
  { k with prev := update k.prev a none, next := update k.next a none }

/-- Append `a`. The tail is found through the head, which must have one. -/
def insert (k : Links α) (a : α) : Links α :=
  if k.linked a then k
  else match k.head with
    | none => { k with head := some a, prev := update k.prev a (some a) }
    | some h =>
      { k with
        next := match k.prev h with
          | some t => update k.next t (some a)
          | none => k.next
        prev := update (update k.prev a (k.prev h)) h (some a) }

/-- Take `a` out. -/
def remove (k : Links α) (a : α) : Links α :=
  match k.head with
  | none => k
  | some h =>
    let prev := match k.next a with
      | some n => update k.prev n (k.prev a)
      | none => k.prev
    let next := match k.prev a with
      | some p => if a = h then k.next else update k.next p (k.next a)
      | none => k.next
    { head := if a = h then k.next a else some h
      prev :=
        update (if (k.next a).isNone then update prev h (k.prev a) else prev) a none
      next := update next a none }

/-- The pointers stand for the list `l`. -/
structure Represents (k : Links α) (l : List α) : Prop where
  nodup : l.Nodup
  head : k.head = l.head?
  next : ∀ pre a post, l = pre ++ a :: post → k.next a = post.head?
  prev : ∀ pre a post, l = pre ++ a :: post → k.prev a = pre.getLast?.or l.getLast?
  off : ∀ a, a ∉ l → k.prev a = none ∧ k.next a = none

variable {k : Links α} {l : List α} {a : α} {h : α}

omit [DecidableEq α] in
theorem represents_empty : Represents (empty : Links α) [] := by
  refine ⟨nodup_nil, rfl, ?_, ?_, fun _ _ => ⟨rfl, rfl⟩⟩
  · intro pre a post split
    simp at split
  · intro pre a post split
    simp at split

omit [DecidableEq α] in
theorem Represents.linked_iff (rep : Represents k l) : k.linked a = true ↔ a ∈ l := by
  constructor
  · intro linked
    by_contra off
    obtain ⟨prev, next⟩ := rep.off a off
    simp [Links.linked, prev, next] at linked
  · intro member
    obtain ⟨pre, post, split⟩ := append_of_mem member
    have prev := rep.prev pre a post split
    have some : (pre.getLast?.or l.getLast?).isSome = true := by
      rw [split]
      simp
    simp [Links.linked, prev, some]

omit [DecidableEq α] in
theorem Represents.prev_head (rep : Represents k l) (head : k.head = some h) :
    k.prev h = l.getLast? := by
  obtain ⟨rest, rfl⟩ : ∃ rest, l = h :: rest := by
    rw [rep.head] at head
    cases l with
    | nil => cases head
    | cons b rest => exact ⟨rest, by simpa using head⟩
  simpa using rep.prev [] h rest rfl

theorem Represents.clear (rep : Represents k l) (off : a ∉ l) : k.clear a = k := by
  obtain ⟨prev, next⟩ := rep.off a off
  rw [Links.clear, update_eq_self_iff.mpr prev.symm, update_eq_self_iff.mpr next.symm]

/-- Appending to a list that has a head and a tail. -/
theorem Represents.insert_cons {t : α} (rep : Represents k l) (off : a ∉ l)
    (head : k.head = some h) (tail : l.getLast? = some t) :
    k.insert a =
      { head := some h
        prev := update (update k.prev a (some t)) h (some a)
        next := update k.next t (some a) } := by
  have unlinked : ¬k.linked a = true := fun linked => off (rep.linked_iff.mp linked)
  rw [insert, if_neg unlinked]
  simp [head, rep.prev_head head, tail]

section Positions

omit [DecidableEq α]

variable {pre post : List α} {b : α}

/-- Where a member of `l ++ [a]` stands. -/
theorem snoc_split (split : l ++ [a] = pre ++ b :: post) :
    (pre = l ∧ b = a ∧ post = []) ∨ ∃ post', post = post' ++ [a] ∧ l = pre ++ b :: post' := by
  rcases eq_nil_or_concat' post with rfl | ⟨post', c, rfl⟩
  · left
    have parts := append_inj' split rfl
    exact ⟨parts.1.symm, by simpa using parts.2.symm, rfl⟩
  · right
    rw [← cons_append, ← append_assoc] at split
    have parts := append_inj' split rfl
    obtain rfl : a = c := by simpa using parts.2
    exact ⟨post', rfl, parts.1⟩

theorem isLast_iff (nodup : (pre ++ b :: post).Nodup) :
    (pre ++ b :: post).getLast? = some b ↔ post = [] := by
  rcases eq_nil_or_concat' post with rfl | ⟨post', c, rfl⟩
  · simp
  rw [← cons_append, ← append_assoc, List.getLast?_concat]
  simp only [append_eq_nil_iff, cons_ne_self, and_false, iff_false]
  rintro same
  cases same
  simp [nodup_append] at nodup

theorem isHead_iff (nodup : (pre ++ b :: post).Nodup) :
    (pre ++ b :: post).head? = some b ↔ pre = [] := by
  cases pre with
  | nil => simp
  | cons c pre =>
    simp only [reduceCtorEq, iff_false]
    rintro same
    cases same
    simp at nodup

end Positions

theorem Represents.insert (rep : Represents k l) (off : a ∉ l) :
    Represents (k.insert a) (l ++ [a]) := by
  have nodup : (l ++ [a]).Nodup := by
    rw [nodup_append]
    refine ⟨rep.nodup, nodup_singleton a, fun b member c single same => off ?_⟩
    rw [mem_singleton] at single
    exact single ▸ same ▸ member
  obtain ⟨noPrev, noNext⟩ := rep.off a off
  rcases last : l.getLast? with _ | t
  · obtain rfl := List.getLast?_eq_none_iff.mp last
    have head := rep.head
    have unlinked : ¬k.linked a = true := by simp [linked, noPrev, noNext]
    rw [Links.insert, if_neg unlinked]
    simp only [head]
    refine ⟨nodup, rfl, ?_, ?_, ?_⟩
    · intro pre b post split
      obtain ⟨rfl, rfl, rfl⟩ | ⟨post', -, bad⟩ := snoc_split split
      · exact noNext
      · simp at bad
    · intro pre b post split
      obtain ⟨rfl, rfl, rfl⟩ | ⟨post', -, bad⟩ := snoc_split split
      · simp
      · simp at bad
    · intro b other
      have ne : b ≠ a := by simpa using other
      simpa [ne] using rep.off b (by simp)
  · have lMem : t ∈ l := mem_of_getLast? last
    obtain ⟨h, first⟩ : ∃ h, l.head? = some h :=
      ⟨_, List.head?_eq_some_head (ne_nil_of_mem lMem)⟩
    have hMem : h ∈ l := mem_of_mem_head? first
    have aNeT : a ≠ t := fun same => off (same ▸ lMem)
    have aNeH : a ≠ h := fun same => off (same ▸ hMem)
    rw [rep.insert_cons off (rep.head.trans first) last]
    refine ⟨nodup, by simp [first], ?_, ?_, ?_⟩
    · intro pre b post split
      obtain ⟨rfl, rfl, rfl⟩ | ⟨post', rfl, rfl⟩ := snoc_split split
      · simpa [update_of_ne aNeT] using noNext
      have next := rep.next pre b post' rfl
      have atEnd := isLast_iff rep.nodup
      rw [last, Option.some.injEq] at atEnd
      by_cases isLast : b = t
      · simp [isLast, atEnd.mp isLast.symm]
      · have more : post' ≠ [] := fun none => isLast (atEnd.mpr none).symm
        simp only [update_of_ne isLast, next]
        rw [List.head?_append_of_ne_nil _ more]
    · intro pre b post split
      obtain ⟨rfl, rfl, rfl⟩ | ⟨post', rfl, rfl⟩ := snoc_split split
      · simp [update_of_ne aNeH, last]
      have prev := rep.prev pre b post' rfl
      have atStart := isHead_iff rep.nodup
      rw [first, Option.some.injEq] at atStart
      by_cases isHead : b = h
      · rw [List.getLast?_concat]
        simp [isHead, atStart.mp isHead.symm]
      · have bNeA : b ≠ a := fun same => off (same ▸ by simp)
        obtain ⟨p, before⟩ : ∃ p, pre.getLast? = some p :=
          ⟨_, List.getLast?_eq_some_getLast fun none => isHead (atStart.mpr none).symm⟩
        simp [update_of_ne isHead, update_of_ne bNeA, prev, before]
    · intro b other
      simp only [mem_append, mem_singleton, not_or] at other
      have bNeT : b ≠ t := fun same => other.1 (same ▸ lMem)
      have bNeH : b ≠ h := fun same => other.1 (same ▸ hMem)
      simpa [update_of_ne bNeT, update_of_ne bNeH, update_of_ne other.2] using rep.off b other.1

omit [DecidableEq α] in
/-- Where a member of `pre ++ post` stands in `pre ++ a :: post`. -/
theorem gap_split {pre post front back : List α} {b : α}
    (split : pre ++ post = front ++ b :: back) :
    (∃ mid, pre = front ++ b :: mid ∧ back = mid ++ post) ∨
      ∃ mid, front = pre ++ mid ∧ post = mid ++ b :: back := by
  rcases append_eq_append_iff.mp split with ⟨mid, rfl, rfl⟩ | ⟨mid, rfl, rest⟩
  · exact .inr ⟨mid, rfl, rfl⟩
  cases mid with
  | nil => exact .inr ⟨[], by simp, by simpa using rest.symm⟩
  | cons c mid =>
    obtain ⟨rfl, rfl⟩ := List.cons.inj rest
    exact .inl ⟨mid, rfl, rfl⟩

omit [DecidableEq α] in
/-- What follows a member of `pre ++ post`, if `x` follows it in `pre ++ a :: post`. -/
theorem gap_next [DecidableEq (Option α)] {pre post front back : List α} {b : α} {x : Option α}
    (nodup : (pre ++ post).Nodup) (split : pre ++ post = front ++ b :: back)
    (next : ∀ front back, pre ++ a :: post = front ++ b :: back → x = back.head?) :
    (if pre.getLast? = some b then post.head? else x) = back.head? := by
  obtain ⟨mid, rfl, rfl⟩ | ⟨mid, rfl, rfl⟩ := gap_split split
  · have atEnd := isLast_iff (nodup.sublist (sublist_append_left _ _))
    by_cases isLast : mid = []
    · simp [isLast]
    · rw [if_neg (isLast ∘ atEnd.mp), next front (mid ++ a :: post) (by simp),
        List.head?_append_of_ne_nil _ isLast, List.head?_append_of_ne_nil _ isLast]
  · have elsewhere : pre.getLast? ≠ some b := by
      intro last
      rw [nodup_append] at nodup
      exact nodup.2.2 b (mem_of_getLast? last) b (by simp) rfl
    rw [if_neg elsewhere, next (pre ++ a :: mid) back (by simp)]

section Remove

variable {pre post : List α} (rep : Represents k (pre ++ a :: post))
include rep

theorem Represents.remove_head : (k.remove a).head = (pre ++ post).head? := by
  have atStart := isHead_iff rep.nodup
  have next := rep.next pre a post rfl
  cases pre with
  | nil => simp [remove, rep.head, next]
  | cons h pre =>
    have ne : a ≠ h := by simpa [eq_comm] using atStart
    simp [remove, rep.head, ne]

theorem Represents.remove_next (b : α) :
    (k.remove a).next b =
      if b = a then none else if pre.getLast? = some b then post.head? else k.next b := by
  have atStart := isHead_iff rep.nodup
  have next := rep.next pre a post rfl
  have prev := rep.prev pre a post rfl
  by_cases self : b = a
  · cases pre <;> simp [remove, rep.head, self]
  cases pre with
  | nil =>
    simp only [remove, rep.head]
    cases k.prev a <;> simp [self]
  | cons h pre =>
    have ne : a ≠ h := by simpa [eq_comm] using atStart
    obtain ⟨p, before⟩ : ∃ p, (h :: pre).getLast? = some p :=
      ⟨_, List.getLast?_eq_some_getLast (by simp)⟩
    simp only [remove, rep.head, cons_append, List.head?_cons, prev, ne, before, next]
    by_cases isPrev : b = p
    · subst isPrev
      simp [self]
    · simp [isPrev, self, Ne.symm isPrev]

theorem Represents.remove_prev (b : α) :
    (k.remove a).prev b =
      if b = a then none
      else if post.head? = some b ∨ (post = [] ∧ k.head = some b) then k.prev a
      else k.prev b := by
  have next := rep.next pre a post rfl
  obtain ⟨h, head⟩ : ∃ h, k.head = some h := by
    rw [rep.head]
    exact ⟨_, List.head?_eq_some_head (by simp)⟩
  by_cases self : b = a
  · simp [remove, head, self]
  cases post with
  | nil =>
    simp only [remove, head, next]
    by_cases isHead : b = h
    · subst isHead
      simp [self]
    · simp [isHead, self, Ne.symm isHead]
  | cons n post =>
    simp only [remove, head, next]
    by_cases isNext : b = n
    · subst isNext
      simp [self]
    · simp [isNext, self, Ne.symm isNext]

/-- Taking `a` out from between `pre` and `post`. -/
theorem Represents.remove : Represents (k.remove a) (pre ++ post) := by
  have nodup := rep.nodup.sublist (List.Sublist.append_left (sublist_cons_self a post) pre)
  have notTwice := rep.nodup
  rw [nodup_middle, nodup_cons] at notTwice
  refine ⟨nodup, rep.remove_head, ?_, ?_, ?_⟩
  · intro front b back split
    have ne : b ≠ a := fun same => notTwice.1 (same ▸ split ▸ by simp)
    rw [rep.remove_next, if_neg ne]
    exact gap_next nodup split fun front back whole => rep.next front b back whole
  · intro front b back split
    have ne : b ≠ a := fun same => notTwice.1 (same ▸ split ▸ by simp)
    have prevA := rep.prev pre a post rfl
    rw [rep.remove_prev, if_neg ne]
    obtain ⟨mid, rfl, rfl⟩ | ⟨mid, rfl, rfl⟩ := gap_split split
    · -- before the gap: only the head's pointer to the tail can change
      have prevB := rep.prev front b (mid ++ a :: post) (by simp)
      have notNext : post.head? ≠ some b := by
        intro isNext
        rw [nodup_append] at nodup
        exact nodup.2.2 b (by simp) b (mem_of_mem_head? isNext) rfl
      have atStart : k.head = some b ↔ front = [] := by
        rw [rep.head]
        simpa using isHead_iff (split ▸ nodup)
      cases post with
      | nil =>
        by_cases isHead : front = []
        · simp [atStart, isHead, prevA, List.getLast?_cons]
        · obtain ⟨p, before⟩ : ∃ p, front.getLast? = some p :=
            ⟨_, List.getLast?_eq_some_getLast isHead⟩
          simp [atStart, isHead, prevB, before]
      | cons n post =>
        rw [if_neg (by simpa using notNext), prevB]
        simp [List.getLast?_append, List.getLast?_cons]
    · -- after the gap: only the next node's pointer changes
      have prevB := rep.prev (pre ++ a :: mid) b back (by simp)
      cases mid with
      | nil =>
        rw [if_pos (by simp), prevA]
        simp [List.getLast?_append, List.getLast?_cons]
      | cons n mid =>
        have notNext : n ≠ b := by
          rintro rfl
          simp [nodup_append] at nodup
        rw [if_neg (by simpa using notNext), prevB]
        simp [List.getLast?_cons]
  · intro b other
    by_cases self : b = a
    · simp [rep.remove_prev, rep.remove_next, self]
    have outside : b ∉ pre ++ a :: post := by
      simp only [mem_append, mem_cons, not_or] at other ⊢
      exact ⟨other.1, self, other.2⟩
    obtain ⟨noPrev, noNext⟩ := rep.off b outside
    have notNext : post.head? ≠ some b :=
      fun isNext => other (mem_append_right _ (mem_of_mem_head? isNext))
    have notLast : pre.getLast? ≠ some b :=
      fun isLast => other (mem_append_left _ (mem_of_getLast? isLast))
    have notHead : k.head ≠ some b :=
      fun isHead => outside (mem_of_mem_head? (rep.head ▸ isHead))
    simp [rep.remove_prev, rep.remove_next, self, notNext, notLast, notHead, noPrev, noNext]

end Remove

end Links

end Argentum.Lib
