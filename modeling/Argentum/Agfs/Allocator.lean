/-
# Agfs.Allocator — the loops of the block allocator

`Agfs.Balloc` says what the allocator of `fs/agfs/balloc.c` finds; here are the loops that find it.
A search starts at the hint, goes around the end of the volume and stops where it started; a window
grows block by block. `balloc_volume` ties the loops to the functions that the rest of the
development uses.

`block_allocator`: over any sequence of calls `used_blocks` counts the set bits, an allocation takes
blocks of the volume that were free, a window stays in one group, `-ENOSPC` means that the volume is
full, and no other bit changes.
-/
import Argentum.Agfs.Balloc
import Argentum.Lib.Machine
import Mathlib.Data.Finset.Card
import Mathlib.Data.List.Range
import Mathlib.Data.Nat.ModEq

namespace Argentum.Agfs

open Lib.Machine List

/-- What the allocator reads of a mounted volume; `bpb` is the number of bits in a block. A group's
bitmap has a bit for every block of the group. -/
structure Volume where
  agShift : Nat
  numBlocks : Nat
  blocksPerAg : Nat
  bpb : Nat
  nonempty : 0 < numBlocks
  small : numBlocks < 2 ^ 31
  roomy : 2 ^ agShift ≤ blocksPerAg * bpb

namespace Volume

variable (v : Volume)

/-- `agfs_bitmap_byte`, in bits. -/
def bitOffset (block : Nat) : Nat :=
  block / 2 ^ v.agShift * v.blocksPerAg * v.bpb + block % 2 ^ v.agShift

/-- `agfs_bitmap_test`. -/
def test (s : Space) (block : Nat) : Bool := s.bitmap (v.bitOffset block)

/-- `agfs_bitmap_set` and `agfs_bitmap_clear`. -/
def mark (s : Space) (block : Nat) (used : Bool) : Space :=
  { s with bitmap := Function.update s.bitmap (v.bitOffset block) used }

/-- The next block, around the end of the volume. -/
def after (block : Nat) : Nat := if v.numBlocks ≤ block + 1 then 0 else block + 1

/-- The loops of `agfs_balloc` and `agfs_balloc_contig` that look for a free block: `some none` when
they have come back to the hint. -/
def search (s : Space) (hint : Nat) : Nat → Nat → Option (Option Nat)
  | 0, _ => none
  | fuel + 1, block =>
    if !v.test s block then some (some block)
    else if v.after block = hint then some none
    else search s hint fuel (v.after block)

def hint (s : Space) : Nat := if v.numBlocks ≤ s.nextFree then 0 else s.nextFree

/-- The loop of `agfs_balloc_contig` that takes blocks. -/
def window (first : Nat) : Nat → Nat → Space → Space × Nat
  | 0, got, s => (s, got)
  | want + 1, got, s =>
    let b := first + got
    if v.numBlocks ≤ b then (s, got)
    else if first < b ∧ b % 2 ^ v.agShift = 0 then (s, got)
    else if v.test s b then (s, got)
    else window first want (got + 1) (v.mark s b true)

inductive Call
  | balloc
  | ballocSpecific (block : Nat)
  | ballocContig (want : Nat)
  | bfree (block : Nat)
  deriving DecidableEq

inductive Reply
  | block (b : Nat)
  | run (first len : Nat)
  | done
  | error (e : Errno)
  deriving DecidableEq

/-- `agfs_balloc`; `none` if its loop does not end. -/
def balloc (s : Space) : Option (Space × Reply) :=
  (v.search s (v.hint s) v.numBlocks (v.hint s)).map fun
    | some b =>
      ({ v.mark s b true with usedBlocks := s.usedBlocks + 1, nextFree := b + 1 }, .block b)
    | none => (s, .error .enospc)

/-- `agfs_balloc_specific`. -/
def ballocSpecific (s : Space) (block : Nat) : Space × Reply :=
  if v.numBlocks ≤ block then (s, .error .einval)
  else if v.test s block then (s, .error .eexist)
  else ({ v.mark s block true with usedBlocks := s.usedBlocks + 1 }, .done)

/-- `agfs_balloc_contig`. -/
def ballocContig (s : Space) (want : Nat) : Option (Space × Reply) :=
  (v.search s (v.hint s) v.numBlocks (v.hint s)).map fun
    | some first =>
      let taken := v.window first want 0 s
      ({ taken.1 with
          usedBlocks := s.usedBlocks + UInt64.ofNat taken.2
          nextFree := if v.numBlocks ≤ first + taken.2 then 0 else first + taken.2 },
        .run first taken.2)
    | none => (s, .error .enospc)

/-- `agfs_bfree`. -/
def bfree (s : Space) (block : Nat) : Space × Reply :=
  if v.numBlocks ≤ block then (s, .done)
  else if v.test s block then
    ({ v.mark s block false with
        usedBlocks := s.usedBlocks - 1
        nextFree := if block < s.nextFree then block else s.nextFree }, .done)
  else (s, .done)

def call (s : Space) : Call → Option (Space × Reply)
  | .balloc => v.balloc s
  | .ballocSpecific block => some (v.ballocSpecific s block)
  | .ballocContig want => v.ballocContig s want
  | .bfree block => some (v.bfree s block)

def step (s : Space) (c : Call) : Option Space := (v.call s c).map Prod.fst

/-! ## What is promised -/

def used (s : Space) : Finset Nat := (Finset.range v.numBlocks).filter fun b => v.test s b = true

/-- `used_blocks` is right. -/
def Matched (s : Space) : Prop := s.usedBlocks.toNat = (v.used s).card

/-- The blocks that a reply hands out. -/
def taken : Call → Reply → List Nat
  | _, .block b => [b]
  | .ballocSpecific block, .done => [block]
  | _, .run first len => List.range' first len
  | _, _ => []

def freed : Call → List Nat
  | .bfree block => if block < v.numBlocks then [block] else []
  | _ => []

/-- What one call does. -/
structure Sound (s : Space) (c : Call) (s' : Space) (reply : Reply) : Prop where
  free : ∀ b ∈ taken c reply, b < v.numBlocks ∧ v.test s b = false
  full : reply = .error .enospc → ∀ b < v.numBlocks, v.test s b = true
  failed : ∀ e, reply = .error e → s' = s
  group : ∀ want first len, c = .ballocContig want → want ≠ 0 → reply = .run first len →
    len ≠ 0 ∧ len ≤ want ∧ ∀ b ∈ List.range' first len, b / 2 ^ v.agShift = first / 2 ^ v.agShift
  idle : ∀ b, c = .bfree b → v.numBlocks ≤ b ∨ v.test s b = false → s' = s
  frame : ∀ off, s'.bitmap off =
    if off ∈ (taken c reply).map v.bitOffset then true
    else if off ∈ (v.freed c).map v.bitOffset then false
    else s.bitmap off

/-! ## Bits -/

section Bits

variable {v : Volume} {s : Space} {b b' : Nat}

theorem bitOffset_inj (same : v.bitOffset b = v.bitOffset b') : b = b' :=
  groupBit_inj (Nat.two_pow_pos _) v.roomy same

theorem test_mark (u : Bool) : v.test (v.mark s b u) b' = if b' = b then u else v.test s b' := by
  unfold test mark
  by_cases same : b' = b
  · simp [same]
  · rw [if_neg same]
    exact Function.update_of_ne (same ∘ bitOffset_inj) _ _

theorem used_mark_true (inside : b < v.numBlocks) :
    v.used (v.mark s b true) = insert b (v.used s) := by
  ext c
  simp only [used, test_mark]
  by_cases same : c = b
  · simp [same, inside]
  · simp [same]

theorem used_mark_false (v : Volume) (s : Space) (b : Nat) :
    v.used (v.mark s b false) = (v.used s).erase b := by
  ext c
  simp only [used, test_mark]
  by_cases same : c = b
  · simp [same]
  · simp [same]

theorem card_used_le (v : Volume) (s : Space) : (v.used s).card ≤ v.numBlocks := by
  rw [used]
  simpa using Finset.card_filter_le (Finset.range v.numBlocks) fun b => v.test s b = true

theorem mem_used (inside : b < v.numBlocks) : b ∈ v.used s ↔ v.test s b = true := by
  simp [used, inside]

end Bits

/-! ## The search -/

section Search

variable {v : Volume} {s : Space} {hint : Nat} {k : Nat}

theorem after_mod (v : Volume) (x : Nat) : v.after (x % v.numBlocks) = (x + 1) % v.numBlocks := by
  have below := Nat.mod_lt x v.nonempty
  rw [← Nat.mod_add_mod x, after]
  split
  case isTrue last =>
    rw [show x % v.numBlocks + 1 = v.numBlocks by omega, Nat.mod_self]
  case isFalse inner => exact (Nat.mod_eq_of_lt (by omega)).symm

/-- The search is back at the hint after a whole turn, not before. -/
theorem turn_iff (inside : hint < v.numBlocks) (upTo : k + 1 ≤ v.numBlocks) :
    (hint + k + 1) % v.numBlocks = hint ↔ k + 1 = v.numBlocks := by
  constructor
  · intro back
    by_cases wraps : hint + k + 1 < v.numBlocks
    · rw [Nat.mod_eq_of_lt wraps] at back
      omega
    · rw [Nat.mod_eq_sub_mod (by omega), Nat.mod_eq_of_lt (by omega)] at back
      omega
  · intro whole
    rw [Nat.add_assoc, whole, Nat.add_mod_right, Nat.mod_eq_of_lt inside]

/-- The blocks that the search meets from its `k`-th step on. -/
def order (v : Volume) (hint k m : Nat) : List Nat :=
  (List.range' k m).map fun j => (hint + j) % v.numBlocks

theorem order_succ (v : Volume) (hint k m : Nat) :
    order v hint k (m + 1) = (hint + k) % v.numBlocks :: order v hint (k + 1) m := by
  rfl

theorem search_eq {m : Nat} (inside : hint < v.numBlocks) (rest : k + (m + 1) = v.numBlocks) :
    v.search s hint (m + 1) ((hint + k) % v.numBlocks) =
      some ((order v hint k (m + 1)).find? fun b => !v.test s b) := by
  induction m generalizing k with
  | zero =>
    have back : v.after ((hint + k) % v.numBlocks) = hint :=
      (after_mod v _).trans ((turn_iff inside (by omega)).mpr (by omega))
    rw [search, back, if_pos rfl, order_succ, List.find?_cons]
    cases v.test s ((hint + k) % v.numBlocks) <;> rfl
  | succ m ih =>
    have further : v.after ((hint + k) % v.numBlocks) ≠ hint := by
      rw [after_mod, Ne, turn_iff inside (by omega)]
      omega
    have later := ih (k := k + 1) (by omega)
    rw [search, if_neg further, after_mod, Nat.add_assoc, later, order_succ v hint k,
      List.find?_cons]
    cases v.test s ((hint + k) % v.numBlocks) <;> rfl

theorem hint_lt (v : Volume) (s : Space) : v.hint s < v.numBlocks := by
  unfold hint
  split
  · exact v.nonempty
  · omega

/-- The search ends, with the first free block of one turn. -/
theorem search_eq_find (v : Volume) (s : Space) :
    v.search s (v.hint s) v.numBlocks (v.hint s) =
      some ((order v (v.hint s) 0 v.numBlocks).find? fun b => !v.test s b) := by
  obtain ⟨m, whole⟩ := Nat.exists_eq_add_one.mpr v.nonempty
  have start : v.hint s = (v.hint s + 0) % v.numBlocks := by
    rw [Nat.add_zero, Nat.mod_eq_of_lt (hint_lt v s)]
  have found := search_eq (s := s) (k := 0) (m := m) (hint_lt v s) (by omega)
  rw [← start, ← whole] at found
  exact found

theorem mem_order {b : Nat} (inside : hint < v.numBlocks) :
    b ∈ order v hint 0 v.numBlocks ↔ b < v.numBlocks := by
  simp only [order, mem_map, mem_range'_1]
  constructor
  · rintro ⟨j, -, rfl⟩
    exact Nat.mod_lt _ v.nonempty
  · intro small
    by_cases behind : hint ≤ b
    · refine ⟨b - hint, ⟨Nat.zero_le _, by omega⟩, ?_⟩
      rw [show hint + (b - hint) = b by omega, Nat.mod_eq_of_lt small]
    · refine ⟨b + v.numBlocks - hint, ⟨Nat.zero_le _, by omega⟩, ?_⟩
      rw [show hint + (b + v.numBlocks - hint) = b + v.numBlocks by omega, Nat.add_mod_right,
        Nat.mod_eq_of_lt small]

theorem search_spec (v : Volume) (s : Space) :
    ∃ found, v.search s (v.hint s) v.numBlocks (v.hint s) = some found ∧
      (∀ b, found = some b → b < v.numBlocks ∧ v.test s b = false) ∧
      (found = none → ∀ b < v.numBlocks, v.test s b = true) := by
  refine ⟨_, search_eq_find v s, fun b found => ?_, fun none b inside => ?_⟩
  · exact ⟨(mem_order (hint_lt v s)).mp (mem_of_find?_eq_some found),
      by simpa using List.find?_some found⟩
  · rw [List.find?_eq_none] at none
    simpa using none b ((mem_order (hint_lt v s)).mpr inside)

end Search

/-! ## Several blocks -/

section Marks

variable {v : Volume} {s : Space} {bs : List Nat}

def marks (v : Volume) (s : Space) (bs : List Nat) : Space :=
  bs.foldl (fun s b => v.mark s b true) s

/-- Free blocks of the volume, each named once. -/
structure Available (v : Volume) (s : Space) (bs : List Nat) : Prop where
  nodup : bs.Nodup
  free : ∀ b ∈ bs, b < v.numBlocks ∧ v.test s b = false

theorem marks_bitmap (v : Volume) (s : Space) (bs : List Nat) (off : Nat) :
    (v.marks s bs).bitmap off = if off ∈ bs.map v.bitOffset then true else s.bitmap off := by
  induction bs generalizing s with
  | nil => rfl
  | cons b bs ih =>
    rw [marks, foldl_cons, ← marks, ih, map_cons]
    by_cases later : off ∈ bs.map v.bitOffset
    · rw [if_pos later, if_pos (mem_cons_of_mem _ later)]
    · by_cases here : off = v.bitOffset b
      · simp [mark, here]
      · simp [mark, here]

theorem used_marks (inside : ∀ b ∈ bs, b < v.numBlocks) :
    v.used (v.marks s bs) = v.used s ∪ bs.toFinset := by
  induction bs generalizing s with
  | nil => simp [marks]
  | cons b bs ih =>
    obtain ⟨first, rest⟩ := forall_mem_cons.mp inside
    rw [marks, foldl_cons, ← marks, ih rest, used_mark_true first]
    simp [Finset.union_insert]

/-- Taking free blocks and counting them. -/
theorem Matched.marks (matched : v.Matched s) (available : Available v s bs) (next : Nat) :
    v.Matched
      { v.marks s bs with
        usedBlocks := s.usedBlocks + UInt64.ofNat bs.length, nextFree := next } := by
  have inside : ∀ b ∈ bs, b < v.numBlocks := fun b member => (available.free b member).1
  have apart : Disjoint (v.used s) bs.toFinset := by
    rw [Finset.disjoint_right]
    intro b member
    have here := available.free b (mem_toFinset.mp member)
    rw [mem_used here.1, here.2]
    decide
  have grown : (v.used (v.marks s bs)).card = (v.used s).card + bs.length := by
    rw [used_marks inside, Finset.card_union_of_disjoint apart,
      toFinset_card_of_nodup available.nodup]
  have bound := card_used_le v (v.marks s bs)
  have small := v.small
  show (s.usedBlocks + UInt64.ofNat bs.length).toNat = (v.used (v.marks s bs)).card
  rw [grown, UInt64.toNat_add, matched, UInt64.toNat_ofNat',
    Nat.mod_eq_of_lt (by omega), Nat.mod_eq_of_lt (by omega)]

/-- The window that `agfs_balloc_contig` takes. -/
theorem window_eq (v : Volume) (first want got : Nat) (s : Space) :
    ∃ n ≤ want, v.window first want got s = (v.marks s (List.range' (first + got) n), got + n) ∧
      Available v s (List.range' (first + got) n) ∧
      (∀ b ∈ List.range' (first + got) n, first < b → b % 2 ^ v.agShift ≠ 0) ∧
      (want ≠ 0 → got = 0 → first < v.numBlocks → v.test s first = false → n ≠ 0) := by
  induction want generalizing got s with
  | zero => exact ⟨0, Nat.le_refl 0, rfl, ⟨nodup_nil, by simp⟩, by simp, nofun⟩
  | succ want ih =>
    have stop : ∀ reason : Prop, reason →
        (got = 0 → first < v.numBlocks → v.test s first = false → ¬reason) →
        ∃ n ≤ want + 1, (s, got) = (v.marks s (List.range' (first + got) n), got + n) ∧
          Available v s (List.range' (first + got) n) ∧
          (∀ b ∈ List.range' (first + got) n, first < b → b % 2 ^ v.agShift ≠ 0) ∧
          (want + 1 ≠ 0 → got = 0 → first < v.numBlocks → v.test s first = false → n ≠ 0) := by
      intro reason here never
      exact ⟨0, Nat.zero_le _, rfl, ⟨nodup_nil, by simp⟩, by simp,
        fun _ start inside free => absurd here (never start inside free)⟩
    rw [window]
    split
    case isTrue beyond => exact stop _ beyond fun start inside _ => by omega
    case isFalse within =>
      split
      case isTrue border => exact stop _ border fun start _ _ both => by omega
      case isFalse inner =>
        split
        case isTrue taken =>
          refine stop _ taken fun start _ free => ?_
          rw [start, Nat.add_zero, free]
          decide
        case isFalse free =>
          obtain ⟨n, few, ran, available, borders, -⟩ :=
            ih (got + 1) (v.mark s (first + got) true)
          refine ⟨n + 1, by omega, ?_, ⟨nodup_range', ?_⟩, ?_, fun _ _ _ _ => by omega⟩
          · rw [ran]
            exact Prod.ext rfl (by omega)
          · rw [List.range'_succ, forall_mem_cons]
            refine ⟨⟨by omega, by simpa using free⟩, fun b member => ?_⟩
            have there := available.free b member
            rw [test_mark] at there
            split at there
            · exact absurd there.2 (by decide)
            · exact there
          · rw [List.range'_succ, forall_mem_cons]
            exact ⟨fun later => fun zero => inner ⟨later, zero⟩, borders⟩

/-- Blocks after `first` that start no group are in the group of `first`. -/
theorem same_group (v : Volume) {first j : Nat}
    (inner : ∀ i, 0 < i → i ≤ j → (first + i) % 2 ^ v.agShift ≠ 0) :
    (first + j) / 2 ^ v.agShift = first / 2 ^ v.agShift := by
  induction j with
  | zero => rfl
  | succ j ih =>
    have border : ¬2 ^ v.agShift ∣ first + j + 1 := fun divides =>
      inner (j + 1) (by omega) (Nat.le_refl _) (Nat.mod_eq_zero_of_dvd divides)
    rw [← Nat.add_assoc, Nat.succ_div_of_not_dvd border]
    exact ih fun i pos upTo => inner i pos (by omega)

end Marks

/-! ## The calls -/

section Calls

variable {v : Volume} {s s' : Space} {c : Call} {reply : Reply}

theorem Sound.of_error {e : Errno} (full : e = .enospc → ∀ b < v.numBlocks, v.test s b = true)
    (noFree : ∀ b, c ≠ .bfree b) : v.Sound s c s (.error e) where
  free _ member := by cases c <;> cases member
  full same := full (Reply.error.inj same)
  failed _ _ := rfl
  group := nofun
  idle b same := absurd same (noFree b)
  frame off := by
    have noTaken : taken c (.error e) = [] := by cases c <;> rfl
    have noFreed : v.freed c = [] := by
      cases c with
      | bfree b => exact absurd rfl (noFree b)
      | _ => rfl
    simp [noTaken, noFreed]

/-- A call that has taken the blocks it replies. -/
theorem Sound.takes {bs : List Nat} {used : UInt64} {next : Nat} (bs_eq : taken c reply = bs)
    (noFree : ∀ b, c ≠ .bfree b) (success : ∀ e, reply ≠ .error e) (available : Available v s bs)
    (group : ∀ want first len, c = .ballocContig want → want ≠ 0 → reply = .run first len →
      len ≠ 0 ∧ len ≤ want ∧
        ∀ b ∈ List.range' first len, b / 2 ^ v.agShift = first / 2 ^ v.agShift) :
    v.Sound s c { v.marks s bs with usedBlocks := used, nextFree := next } reply where
  free := bs_eq ▸ available.free
  full same := absurd same (success .enospc)
  failed e same := absurd same (success e)
  group := group
  idle b same := absurd same (noFree b)
  frame off := by
    have noFreed : v.freed c = [] := by
      cases c with
      | bfree b => exact absurd rfl (noFree b)
      | _ => rfl
    rw [bs_eq, noFreed]
    exact marks_bitmap v s bs off

theorem available_one {b : Nat} (inside : b < v.numBlocks) (free : v.test s b = false) :
    Available v s [b] :=
  ⟨nodup_singleton b, fun _ member => mem_singleton.mp member ▸ ⟨inside, free⟩⟩

variable (matched : v.Matched s)

include matched

theorem call_balloc :
    ∃ s' reply, v.call s .balloc = some (s', reply) ∧ v.Matched s' ∧
      v.Sound s .balloc s' reply := by
  obtain ⟨found, ends, some, none⟩ := search_spec v s
  rw [call, balloc, ends]
  cases found with
  | none => exact ⟨s, _, rfl, matched, .of_error (fun _ => none rfl) nofun⟩
  | some b =>
    have available := available_one (some b rfl).1 (some b rfl).2
    have sound : v.Sound s .balloc
        { v.marks s [b] with usedBlocks := s.usedBlocks + 1, nextFree := b + 1 } (.block b) := by
      apply Sound.takes
      · rfl
      · nofun
      · nofun
      · exact available
      · nofun
    exact ⟨_, _, rfl, matched.marks available (b + 1), sound⟩

theorem call_ballocSpecific (block : Nat) :
    ∃ s' reply, v.call s (.ballocSpecific block) = some (s', reply) ∧ v.Matched s' ∧
      v.Sound s (.ballocSpecific block) s' reply := by
  rw [call, ballocSpecific]
  split
  case isTrue => exact ⟨s, _, rfl, matched, .of_error nofun nofun⟩
  case isFalse inside =>
    split
    case isTrue => exact ⟨s, _, rfl, matched, .of_error nofun nofun⟩
    case isFalse free =>
      have available := available_one (Nat.lt_of_not_le inside) (by simpa using free)
      have sound : v.Sound s (.ballocSpecific block)
          { v.marks s [block] with usedBlocks := s.usedBlocks + 1, nextFree := s.nextFree }
          .done := by
        apply Sound.takes
        · rfl
        · nofun
        · nofun
        · exact available
        · nofun
      exact ⟨_, _, rfl, matched.marks available s.nextFree, sound⟩

theorem call_ballocContig (want : Nat) :
    ∃ s' reply, v.call s (.ballocContig want) = some (s', reply) ∧ v.Matched s' ∧
      v.Sound s (.ballocContig want) s' reply := by
  obtain ⟨found, ends, some, none⟩ := search_spec v s
  rw [call, ballocContig, ends, Option.map_some]
  cases found with
  | none => exact ⟨s, _, rfl, matched, .of_error (fun _ => none rfl) nofun⟩
  | some first =>
    obtain ⟨n, few, ran, available, borders, least⟩ := window_eq v first want 0 s
    simp only [ran, Nat.zero_add] at available borders ⊢
    refine ⟨_, _, rfl, ?_, .takes rfl nofun (fun _ => nofun) available ?_⟩
    · simpa using matched.marks available (if v.numBlocks ≤ first + n then 0 else first + n)
    · rintro want' first' len ⟨⟩ some' ⟨⟩
      refine ⟨least some' rfl (some first rfl).1 (some first rfl).2, few, fun b member => ?_⟩
      rw [mem_range'_1] at member
      obtain ⟨j, rfl⟩ := Nat.exists_eq_add_of_le member.1
      refine same_group v fun i pos upTo => ?_
      exact borders (first + i) (mem_range'_1.mpr ⟨by omega, by omega⟩) (by omega)

theorem call_bfree (block : Nat) :
    ∃ s' reply, v.call s (.bfree block) = some (s', reply) ∧ v.Matched s' ∧
      v.Sound s (.bfree block) s' reply := by
  have nothing : (v.numBlocks ≤ block ∨ v.test s block = false) →
      v.Sound s (.bfree block) s .done := by
    intro free
    refine ⟨nofun, nofun, nofun, nofun, fun _ _ _ => rfl, fun off => ?_⟩
    simp only [taken, freed, map_nil, not_mem_nil, if_false]
    split
    case isTrue inside =>
      split
      case isTrue here =>
        rw [map_singleton, mem_singleton] at here
        rw [here]
        exact free.resolve_left (by omega)
      case isFalse => rfl
    case isFalse => simp
  rw [call, bfree]
  split
  case isTrue beyond => exact ⟨s, _, rfl, matched, nothing (.inl beyond)⟩
  case isFalse inside =>
    have inside := Nat.lt_of_not_le inside
    split
    case isFalse free => exact ⟨s, _, rfl, matched, nothing (.inr (by simpa using free))⟩
    case isTrue busy =>
      refine ⟨_, _, rfl, ?_, ⟨nofun, nofun, nofun, nofun, ?_, fun off => ?_⟩⟩
      · have member := (mem_used inside).mpr busy
        have some := Finset.card_pos.mpr ⟨block, member⟩
        have one : 1 ≤ s.usedBlocks := by
          rw [UInt64.le_iff_toNat_le, matched]
          exact some
        show (s.usedBlocks - 1).toNat = (v.used (v.mark s block false)).card
        rw [used_mark_false, Finset.card_erase_of_mem member, UInt64.toNat_sub_of_le _ _ one,
          matched]
        rfl
      · rintro b ⟨⟩ free
        rcases free with beyond | free
        · omega
        · rw [busy] at free
          cases free
      · simp [taken, freed, if_pos inside, mark, Function.update_apply]

/-- **One call**: it ends, the counter stays right, and the call is sound. -/
theorem call_sound (c : Call) :
    ∃ s' reply, v.call s c = some (s', reply) ∧ v.Matched s' ∧ v.Sound s c s' reply := by
  cases c with
  | balloc => exact call_balloc matched
  | ballocSpecific block => exact call_ballocSpecific matched block
  | ballocContig want => exact call_ballocContig matched want
  | bfree block => exact call_bfree matched block

end Calls

/-- **The block allocator.** From a volume whose counter is right, after any sequence of calls the
counter is right, and every further call ends and is sound. -/
theorem block_allocator (v : Volume) {start s : Space} {calls : List Call}
    (matched : v.Matched start) (ran : run v.step start calls = some s) :
    v.Matched s ∧ ∀ c, ∃ s' reply, v.call s c = some (s', reply) ∧ v.Sound s c s' reply := by
  have now : v.Matched s := by
    refine run_keeps (fun _ c _ matched taken => ?_) matched ran
    obtain ⟨s'', reply, called, matched', -⟩ := call_sound matched c
    rw [step, called] at taken
    cases taken
    exact matched'
  refine ⟨now, fun c => ?_⟩
  obtain ⟨s', reply, called, -, sound⟩ := call_sound now c
  exact ⟨s', reply, called, sound⟩

/-! ## Poles -/

/-- Ten blocks in groups of four; the last group is short. -/
def tenBlocks : Volume := ⟨2, 10, 1, 8, by decide, by decide, by decide⟩

/-- Blocks 0 to 5 are used. -/
def sixUsed : Space :=
  ⟨fun off => off ∈ [0, 1, 2, 3, 8, 9], 9, 6⟩

theorem block_allocator_tenBlocks :
    ∃ s, run tenBlocks.step sixUsed [.ballocContig 4, .bfree 2, .balloc] = some s ∧
      tenBlocks.Matched s := by
  obtain ⟨s, ran⟩ : ∃ s, run tenBlocks.step sixUsed [.ballocContig 4, .bfree 2, .balloc] = some s :=
    Option.isSome_iff_exists.mp (by decide +kernel)
  have matched : tenBlocks.Matched sixUsed := by
    unfold Matched
    decide +kernel
  exact ⟨s, ran, (block_allocator tenBlocks matched ran).1⟩

end Volume

/-! ## The loops compute `Agfs.Balloc` -/

open Volume

section Geometry

variable (g : Geometry) (bpb : Nat) (small : g.numBlocks < 2 ^ 31)
  (roomy : 2 ^ g.agShift ≤ g.blocksPerAg * bpb) (s : Space)

def Geometry.volume : Volume where
  agShift := g.agShift
  numBlocks := g.numBlocks
  blocksPerAg := g.blocksPerAg
  bpb := bpb
  nonempty := by
    have below := g.bitmap_below_log
    have inside := g.log_inside
    omega
  small := small
  roomy := roomy

theorem searchOrder_eq {hint : Nat} (inside : hint < g.numBlocks) :
    g.searchOrder hint = order (g.volume bpb small roomy) hint 0 g.numBlocks := by
  have cut : g.numBlocks = (g.numBlocks - hint) + hint := by omega
  rw [order, ← range_eq_range']
  nth_rewrite 1 [cut]
  rw [range_add, map_append, Geometry.searchOrder]
  congr 1
  · rw [List.range'_eq_map_range]
    apply map_congr_left
    intro k member
    rw [mem_range] at member
    exact (Nat.mod_eq_of_lt (show hint + k < g.numBlocks by omega)).symm
  · rw [map_map]
    nth_rewrite 1 [← map_id (List.range hint)]
    apply map_congr_left
    intro k member
    rw [mem_range] at member
    show k = (hint + (g.numBlocks - hint + k)) % g.numBlocks
    rw [show hint + (g.numBlocks - hint + k) = k + g.numBlocks by omega, Nat.add_mod_right,
      Nat.mod_eq_of_lt (by omega)]

/-- The search finds what `Space.firstFree` says. -/
theorem search_volume :
    (g.volume bpb small roomy).search s ((g.volume bpb small roomy).hint s)
      (g.volume bpb small roomy).numBlocks ((g.volume bpb small roomy).hint s) =
        some (s.firstFree g bpb) := by
  have inside := hint_lt (g.volume bpb small roomy) s
  rw [search_eq_find]
  exact congrArg (fun blocks => some (blocks.find? fun b => !s.test g bpb b))
    (searchOrder_eq g bpb small roomy inside).symm

theorem window_volume (first want got : Nat) :
    (g.volume bpb small roomy).window first want got s = Space.window g bpb first want got s := by
  induction want generalizing got s with
  | zero => rfl
  | succ want ih =>
    rw [window, Space.window, ih]
    show (if g.numBlocks ≤ first + got then (s, got)
      else if first < first + got ∧ (first + got) % 2 ^ g.agShift = 0 then (s, got)
      else if s.test g bpb (first + got) then (s, got) else _) = _
    by_cases beyond : g.numBlocks ≤ first + got
    · simp [beyond]
    by_cases border : first < first + got ∧ (first + got) % 2 ^ g.agShift = 0
    · rw [if_neg beyond, if_pos border, if_pos (.inr (.inl border))]
    by_cases busy : s.test g bpb (first + got) = true
    · rw [if_neg beyond, if_neg border, if_pos busy, if_pos (.inr (.inr busy))]
    · rw [if_neg beyond, if_neg border, if_neg busy,
        if_neg fun stop => stop.elim beyond fun stop => stop.elim border busy]
      rfl

/-- The reply that a result of `Agfs.Balloc` stands for. -/
def toReply {α : Type} (s : Space) (reply : α → Volume.Reply) :
    Except Errno (Space × α) → Space × Volume.Reply
  | .ok (s', a) => (s', reply a)
  | .error e => (s, .error e)

/-- **The loops are the allocator** that the other modules use. -/
theorem balloc_volume :
    (g.volume bpb small roomy).balloc s = some (toReply s .block (s.balloc g bpb)) ∧
      ∀ want, (g.volume bpb small roomy).ballocContig s want =
        some (toReply s (fun run => .run run.1 run.2) (s.ballocContig g bpb want)) := by
  refine ⟨?_, fun want => ?_⟩
  · rw [balloc, search_volume, Space.balloc]
    cases s.firstFree g bpb <;> rfl
  · rw [ballocContig, search_volume, Space.ballocContig]
    cases s.firstFree g bpb with
    | none => rfl
    | some first =>
      simp only [window_volume]
      rfl

end Geometry

theorem balloc_volume_sixUsed :
    (smallGeometry.volume 65536 (by decide) (by decide)).balloc sixUsed =
      some (toReply sixUsed .block (sixUsed.balloc smallGeometry 65536)) :=
  (balloc_volume smallGeometry 65536 _ _ sixUsed).1

end Argentum.Agfs
