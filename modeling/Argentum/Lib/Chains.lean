/-
# Lib.Chains — doubly linked lists with several heads

Nodes carry one pair of pointers and stand on at most one of several lists, each with a head of its
own; `prev` of a first node and `next` of a last one are nothing. A `Slot` is a place that holds a
pointer, as a loop over `&head` and `&node->next` sees it. Nodes that are on no list keep whatever
pointers they had. `Represents k l` ties the pointers to the lists; `push` then adds in front and
`unlink` takes a node out.
-/
import Argentum.Lib.TailList

namespace Argentum.Lib

open List Function Links

structure Chains (β α : Type) where
  head : β → Option α
  prev : α → Option α
  next : α → Option α

inductive Slot (β α : Type)
  | head (b : β)
  | next (a : α)
  deriving DecidableEq

open Chains

namespace Chains

variable {β α : Type} [DecidableEq β] [DecidableEq α]

def empty : Chains β α := ⟨fun _ => none, fun _ => none, fun _ => none⟩

def read (k : Chains β α) : Slot β α → Option α
  | .head b => k.head b
  | .next a => k.next a

def write (k : Chains β α) (v : Option α) : Slot β α → Chains β α
  | .head b => { k with head := update k.head b v }
  | .next a => { k with next := update k.next a v }

/-- Put `a` in front of the list `b`. -/
def push (k : Chains β α) (b : β) (a : α) : Chains β α :=
  match k.head b with
  | none =>
    { head := update k.head b (some a)
      prev := update k.prev a none
      next := update k.next a none }
  | some h =>
    { head := update k.head b (some a)
      prev := update (update k.prev a none) h (some a)
      next := update k.next a (some h) }

/-- The neighbours of `a` point past it. -/
def bypass (k : Chains β α) (a : α) : Chains β α :=
  let k := match k.next a with
    | some n => { k with prev := update k.prev n (k.prev a) }
    | none => k
  match k.prev a with
  | some p => { k with next := update k.next p (k.next a) }
  | none => k

/-- Take `a` out of the list `b`. -/
def unlink (k : Chains β α) (b : β) (a : α) : Chains β α :=
  if k.head b = some a then (k.bypass a).write ((k.bypass a).next a) (.head b) else k.bypass a

/-- The pointers of `a` are zeroed. -/
def clear (k : Chains β α) (a : α) : Chains β α :=
  { k with prev := update k.prev a none, next := update k.next a none }

/-- The place that points at what follows `pre` on the list `b`. -/
def slotAfter (b : β) (pre : List α) : Slot β α :=
  match pre.getLast? with
  | none => .head b
  | some q => .next q

/-- The pointers stand for the lists `l`. -/
structure Represents (k : Chains β α) (l : β → List α) : Prop where
  nodup : ∀ b, (l b).Nodup
  apart : ∀ a b b', a ∈ l b → a ∈ l b' → b = b'
  head : ∀ b, k.head b = (l b).head?
  next : ∀ b pre a post, l b = pre ++ a :: post → k.next a = post.head?
  prev : ∀ b pre a post, l b = pre ++ a :: post → k.prev a = pre.getLast?

variable {k : Chains β α} {l : β → List α} {b : β} {a : α} {pre post : List α}

omit [DecidableEq β] [DecidableEq α] in
theorem represents_nil (empty : ∀ b, k.head b = none) : Represents k fun _ => [] := by
  refine ⟨fun _ => nodup_nil, fun _ _ _ inside _ => (nomatch inside), empty, ?_, ?_⟩
  · intro b pre a post split
    simp at split
  · intro b pre a post split
    simp at split

omit [DecidableEq β] [DecidableEq α] in
theorem Represents.read_slotAfter (rep : Represents k l) (split : l b = pre ++ post) :
    k.read (slotAfter b pre) = post.head? := by
  rcases eq_nil_or_concat' pre with rfl | ⟨pre', q, rfl⟩
  · rw [nil_append] at split
    rw [← split]
    exact rep.head b
  · rw [append_assoc] at split
    rw [slotAfter, List.getLast?_concat]
    exact rep.next b pre' q post split

omit [DecidableEq α] in
/-- A node of another list than `b` is not touched by what changes nodes of `b`. -/
theorem mem_update {l' : List α} {b' : β} {c : α} (inside : c ∈ update l b l' b') :
    (b' = b ∧ c ∈ l') ∨ (b' ≠ b ∧ c ∈ l b') := by
  by_cases same : b' = b
  · rw [same, update_self] at inside
    exact .inl ⟨same, inside⟩
  · rw [update_of_ne same] at inside
    exact .inr ⟨same, inside⟩

omit [DecidableEq α] in
/-- New pointers stand for the lists with `l'` at `b`, if they do so at `b` and the nodes of the
other lists keep theirs. -/
theorem Represents.replace {k' : Chains β α} {l' : List α} (rep : Represents k l) (nodup : l'.Nodup)
    (own : ∀ c ∈ l', ∀ b', c ∈ l b' → b' = b) (heads : k'.head = update k.head b l'.head?)
    (next : ∀ pre c post, l' = pre ++ c :: post → k'.next c = post.head?)
    (prev : ∀ pre c post, l' = pre ++ c :: post → k'.prev c = pre.getLast?)
    (others : ∀ b' ≠ b, ∀ c ∈ l b', k'.next c = k.next c ∧ k'.prev c = k.prev c) :
    Represents k' (update l b l') := by
  refine ⟨fun b' => ?_, fun c b₁ b₂ in₁ in₂ => ?_, fun b' => ?_, fun b' pre c post split => ?_,
    fun b' pre c post split => ?_⟩
  · by_cases same : b' = b
    · rwa [same, update_self]
    · rw [update_of_ne same]
      exact rep.nodup b'
  · rcases mem_update in₁ with ⟨at₁, in₁⟩ | ⟨-, in₁⟩
    · rcases mem_update in₂ with ⟨at₂, -⟩ | ⟨-, in₂⟩
      · exact at₁.trans at₂.symm
      · exact at₁.trans (own c in₁ b₂ in₂).symm
    · rcases mem_update in₂ with ⟨at₂, in₂⟩ | ⟨-, in₂⟩
      · exact (own c in₂ b₁ in₁).trans at₂.symm
      · exact rep.apart c b₁ b₂ in₁ in₂
  · rw [heads]
    by_cases same : b' = b
    · simp [same]
    · simpa [same] using rep.head b'
  all_goals by_cases same : b' = b
  · rw [same, update_self] at split
    exact next pre c post split
  · rw [update_of_ne same] at split
    rw [(others b' same c (by simp [split])).1, rep.next b' pre c post split]
  · rw [same, update_self] at split
    exact prev pre c post split
  · rw [update_of_ne same] at split
    rw [(others b' same c (by simp [split])).2, rep.prev b' pre c post split]

/-! ## Adding -/

section Push

variable (rep : Represents k l) (off : ∀ b', a ∉ l b') {c : α} {d : β}
include rep off

omit rep in
theorem push_next (inside : c ∈ l d) : (k.push b a).next c = k.next c := by
  have ne : c ≠ a := fun same => off d (same ▸ inside)
  unfold push
  split <;> exact update_of_ne ne _ _

theorem Represents.push_prev (inside : c ∈ l d) :
    (k.push b a).prev c = if (l b).head? = some c then some a else k.prev c := by
  have ne : c ≠ a := fun same => off d (same ▸ inside)
  unfold push
  rw [rep.head b]
  split
  case h_1 none => simp [none, ne]
  case h_2 h first =>
    by_cases isHead : h = c
    · simp [first, isHead]
    · simp [first, isHead, Ne.symm isHead, ne]

omit rep off in
theorem push_head (k : Chains β α) (b : β) (a : α) :
    (k.push b a).head = update k.head b (some a) := by
  unfold push
  split <;> rfl

theorem Represents.push_self : (k.push b a).next a = (l b).head? ∧ (k.push b a).prev a = none := by
  unfold push
  rw [rep.head b]
  split
  case h_1 none => simp [none]
  case h_2 h first =>
    have ne : a ≠ h := fun same => off b (same ▸ mem_of_mem_head? first)
    simp [first, update_of_ne ne]

theorem Represents.push : Represents (k.push b a) (update l b (a :: l b)) := by
  obtain ⟨nextA, prevA⟩ := rep.push_self (b := b) off
  refine rep.replace (nodup_cons.mpr ⟨off b, rep.nodup b⟩) (fun c inside b' at' => ?_)
    (push_head k b a) (fun pre c post split => ?_) (fun pre c post split => ?_)
    fun b' apart c inside => ⟨push_next off inside, ?_⟩
  · rcases mem_cons.mp inside with rfl | inside
    · exact absurd at' (off b')
    · exact rep.apart c b' b at' inside
  · cases pre with
    | nil =>
      obtain ⟨rfl, rfl⟩ := List.cons.inj split
      exact nextA
    | cons d pre =>
      obtain ⟨-, tail⟩ := List.cons.inj split
      rw [push_next off (d := b) (by simp [tail])]
      exact rep.next b pre c post tail
  · cases pre with
    | nil =>
      obtain ⟨rfl, rfl⟩ := List.cons.inj split
      exact prevA
    | cons d pre =>
      obtain ⟨isA, tail⟩ : a = d ∧ l b = pre ++ c :: post := List.cons.inj split
      have atStart := isHead_iff (tail ▸ rep.nodup b)
      rw [rep.push_prev off (d := b) (by simp [tail]), tail]
      cases pre with
      | nil => simp [isA]
      | cons e pre =>
        have notHead : ((e :: pre) ++ c :: post).head? ≠ some c := by simpa using atStart
        rw [if_neg notHead, rep.prev b (e :: pre) c post tail]
        simp [List.getLast?_cons]
  · have elsewhere : (l b).head? ≠ some c := fun isHead =>
      apart (rep.apart c b' b inside (mem_of_mem_head? isHead))
    rw [rep.push_prev off inside, if_neg elsewhere]

end Push

/-! ## Taking out -/

section Unlink

variable (rep : Represents k l) (split : l b = pre ++ a :: post)
include rep split

omit [DecidableEq β] in
theorem Represents.bypass_eq :
    (k.bypass a).head = k.head ∧
      (∀ c, (k.bypass a).next c = if pre.getLast? = some c then post.head? else k.next c) ∧
      ∀ c, (k.bypass a).prev c = if post.head? = some c then pre.getLast? else k.prev c := by
  have next := rep.next b pre a post split
  have prev := rep.prev b pre a post split
  have nodup := rep.nodup b
  rw [split, nodup_middle, nodup_cons] at nodup
  have ne : ∀ n, post.head? = some n → a ≠ n := fun n first same =>
    nodup.1 (same ▸ mem_append_right pre (mem_of_mem_head? first))
  cases last : pre.getLast? with
  | none =>
    rw [last] at prev
    cases first : post.head? with
    | none => simp [bypass, next, prev, first]
    | some n => simp [bypass, next, prev, first, update_apply, eq_comm, ne n first]
  | some p =>
    rw [last] at prev
    cases first : post.head? with
    | none => simp [bypass, next, prev, first, update_apply, eq_comm]
    | some n => simp [bypass, next, prev, first, update_apply, eq_comm, ne n first]

theorem Represents.unlink_eq :
    (∀ b', (k.unlink b a).head b' = if b' = b then (pre ++ post).head? else k.head b') ∧
      (k.unlink b a).next = (k.bypass a).next ∧ (k.unlink b a).prev = (k.bypass a).prev := by
  obtain ⟨heads, nexts, -⟩ := rep.bypass_eq split
  have next := rep.next b pre a post split
  have head := rep.head b
  have atStart := isHead_iff (split ▸ rep.nodup b)
  rw [split] at head
  cases pre with
  | nil =>
    have isHead : k.head b = some a := by simpa using head
    have nextA : (k.bypass a).next a = post.head? := by simpa [next] using nexts a
    refine ⟨fun b' => ?_, by simp [unlink, isHead, write], by simp [unlink, isHead, write]⟩
    simp [unlink, isHead, write, heads, nextA, update_apply]
  | cons p pre =>
    have notHead : k.head b ≠ some a := by
      rw [head]
      simpa using atStart
    refine ⟨fun b' => ?_, by simp [unlink, notHead], by simp [unlink, notHead]⟩
    rw [unlink, if_neg notHead, heads]
    by_cases same : b' = b
    · simp [same, head]
    · simp [same]

/-- Taking `a` out from between `pre` and `post`. -/
theorem Represents.unlink : Represents (k.unlink b a) (update l b (pre ++ post)) := by
  obtain ⟨-, nexts, prevs⟩ := rep.bypass_eq split
  obtain ⟨heads, sameNext, samePrev⟩ := rep.unlink_eq split
  have part := List.Sublist.append_left (sublist_cons_self a post) pre
  rw [← split] at part
  have nodup := (rep.nodup b).sublist part
  refine rep.replace nodup (fun c inside b' at' => rep.apart c b' b at' (part.subset inside))
    (funext fun b' => ?_) (fun front c back within => ?_) (fun front c back within => ?_)
    fun b' apart c inside => ?_
  · rw [heads b', update_apply]
  · rw [sameNext, nexts c]
    exact gap_next nodup within fun front back whole => rep.next b front c back (split.trans whole)
  · rw [samePrev, prevs c]
    obtain ⟨mid, rfl, rfl⟩ | ⟨mid, rfl, rfl⟩ := gap_split within
    · have prev := rep.prev b front c (mid ++ a :: post) (by simp [split])
      have elsewhere : post.head? ≠ some c := by
        intro first
        rw [nodup_append] at nodup
        exact nodup.2.2 c (by simp) c (mem_of_mem_head? first) rfl
      rw [if_neg elsewhere, prev]
    · have prev := rep.prev b (pre ++ a :: mid) c back (by simp [split])
      have atStart := isHead_iff (nodup.sublist (sublist_append_right pre _))
      by_cases isFirst : mid = []
      · simp [isFirst]
      · obtain ⟨d, last⟩ : ∃ d, mid.getLast? = some d :=
          ⟨_, List.getLast?_eq_some_getLast isFirst⟩
        rw [if_neg (isFirst ∘ atStart.mp), prev]
        simp [List.getLast?_cons, last]
  · have elsewhere : c ∉ pre ++ post := fun old =>
      apart (rep.apart c b' b inside (part.subset old))
    rw [mem_append, not_or] at elsewhere
    rw [sameNext, samePrev, nexts c, prevs c]
    exact ⟨if_neg fun last => elsewhere.1 (mem_of_getLast? last),
      if_neg fun first => elsewhere.2 (mem_of_mem_head? first)⟩

/-- A loop that has come to the slot that holds `a` takes it out by writing the slot. -/
theorem Represents.write_slotAfter :
    (k.bypass a).write ((k.bypass a).next a) (slotAfter b pre) = k.unlink b a := by
  obtain ⟨-, nexts, -⟩ := rep.bypass_eq split
  have head := rep.head b
  have next := rep.next b pre a post split
  have atStart := isHead_iff (split ▸ rep.nodup b)
  rw [split] at head
  rcases eq_nil_or_concat' pre with rfl | ⟨pre', q, rfl⟩
  · have isHead : k.head b = some a := by simpa using head
    rw [Chains.unlink, if_pos isHead]
    rfl
  · have notHead : k.head b ≠ some a := by
      rw [head]
      simpa using atStart
    have notLast : q ≠ a := by
      have nodup := rep.nodup b
      rw [split, nodup_middle, nodup_cons] at nodup
      exact fun same => nodup.1 (by simp [same])
    have nextQ : (k.bypass a).next q = post.head? := by simpa using nexts q
    have nextA : (k.bypass a).next a = post.head? := by simpa [next, notLast] using nexts a
    rw [Chains.unlink, if_neg notHead, slotAfter, List.getLast?_concat, write, nextA,
      update_eq_self_iff.mpr nextQ.symm]

omit [DecidableEq β] [DecidableEq α] split in
theorem Represents.slotAfter_eq_head (split : l b = pre ++ a :: post) :
    slotAfter b pre = .head b ↔ k.head b = some a := by
  have atStart := isHead_iff (split ▸ rep.nodup b)
  rw [rep.head b, split, atStart]
  rcases eq_nil_or_concat' pre with rfl | ⟨pre', q, rfl⟩
  · simp [slotAfter]
  · simp [slotAfter]

end Unlink

/-! ## Pointers of nodes that are on no list -/

omit [DecidableEq β] in
/-- Nodes off the lists may have any pointers. -/
theorem Represents.clear (rep : Represents k l) (off : ∀ b, a ∉ l b) :
    Represents (k.clear a) l := by
  refine ⟨rep.nodup, rep.apart, rep.head, ?_, ?_⟩
  · intro b pre c post split
    have ne : c ≠ a := fun same => off b (by simp [split, same])
    exact (update_of_ne ne _ _).trans (rep.next b pre c post split)
  · intro b pre c post split
    have ne : c ≠ a := fun same => off b (by simp [split, same])
    exact (update_of_ne ne _ _).trans (rep.prev b pre c post split)

end Chains

end Argentum.Lib
