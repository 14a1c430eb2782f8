/-
# Agfs.Query.Pattern — names against patterns

`agfs_q_pattern_match` goes through pattern and name together and, at a `*`, tries the rest of the
pattern at each later place. The end of the name is not tried; nothing is lost by it, as what
follows the stars needs a character. `patternMatch_iff` says that the names that match are the
language of the pattern, read as a list of marks (`Reads`): any string, or one character of a set.
-/
import Mathlib.Computability.Language
import Argentum.Agfs.BTree.Keys

namespace Argentum.Agfs.Query

open List
open Agfs.BTree (signedChar signedChar_injective)

/-! ## The matcher -/

/-- `lo <= c && c <= hi`, as `char`. -/
def between (c lo hi : UInt8) : Bool :=
  signedChar lo ≤ signedChar c && signedChar c ≤ signedChar hi

/-- The loop of `agfs_q_class_match`: whether the character was found, and the pattern behind. -/
def classLoop (c : UInt8) (matched : Bool) : Bytes → Option (Bool × Bytes)
  | [] => none
  | lo :: p =>
    if lo = ']'.toUInt8 then some (matched, p)
    else match p with
      | dash :: hi :: rest =>
        if dash = '-'.toUInt8 ∧ hi ≠ ']'.toUInt8 then classLoop c (matched || between c lo hi) rest
        else classLoop c (matched || c = lo) (dash :: hi :: rest)
      | p => classLoop c (matched || c = lo) p

/-- A class may begin with `^` or `!`. -/
def inverted : Bytes → Bool × Bytes
  | first :: p =>
    if first = '^'.toUInt8 ∨ first = '!'.toUInt8 then (true, p) else (false, first :: p)
  | [] => (false, [])

/-- `agfs_q_class_match`. -/
def classMatch (p : Bytes) (c : UInt8) : Option (Bool × Bytes) :=
  (classLoop c false (inverted p).2).map fun found => (found.1 != (inverted p).1, found.2)

/-- The places that the loop behind a `*` tries: all but the end. -/
def places : Bytes → List Bytes
  | [] => []
  | c :: s => (c :: s) :: places s

/-- The ranges that a class lists, a single character as one, and the pattern behind it. -/
def listed : Bytes → Option (List (UInt8 × UInt8) × Bytes)
  | [] => none
  | lo :: p =>
    if lo = ']'.toUInt8 then some ([], p)
    else match p with
      | dash :: hi :: rest =>
        if dash = '-'.toUInt8 ∧ hi ≠ ']'.toUInt8 then
          (listed rest).map fun l => ((lo, hi) :: l.1, l.2)
        else (listed (dash :: hi :: rest)).map fun l => ((lo, lo) :: l.1, l.2)
      | p => (listed p).map fun l => ((lo, lo) :: l.1, l.2)

theorem listed_length {p : Bytes} {l : List (UInt8 × UInt8) × Bytes}
    (found : listed p = some l) : l.2.length < p.length := by
  fun_induction listed p generalizing l with
  | case1 => cases found
  | case2 =>
    cases found
    simp
  | case3 _ _ _ _ _ _ ih | case4 _ _ _ _ _ _ ih | case5 _ _ _ _ ih =>
    obtain ⟨later, tail, rfl⟩ := Option.map_eq_some_iff.mp found
    have shorter := ih tail
    simp only [length_cons] at shorter ⊢
    omega

theorem classLoop_eq (c : UInt8) (matched : Bool) (p : Bytes) :
    classLoop c matched p =
      (listed p).map fun l => (matched || l.1.any fun r => between c r.1 r.2, l.2) := by
  have single : ∀ lo : UInt8, decide (c = lo) = between c lo lo := by
    intro lo
    simp only [between, ← Bool.decide_and, ← le_antisymm_iff, signedChar_injective.eq_iff, eq_comm]
  induction p using listed.induct generalizing matched with
  | case1 => rfl
  | case2 p =>
    unfold classLoop listed
    simp
  | case3 lo ends dash hi rest range ih =>
    simp [classLoop, listed, ends, range, ih, Function.comp_def, Bool.or_assoc]
  | case4 lo ends dash hi rest other ih =>
    rw [classLoop, listed, if_neg ends, if_neg ends]
    simp only [if_neg other, ih, single, Option.map_map, Function.comp_def, any_cons, Bool.or_assoc]
  | case5 lo ends p short ih =>
    rw [classLoop, listed, if_neg ends, if_neg ends] <;> try exact short
    simp only [ih, single, Option.map_map, Function.comp_def, any_cons, Bool.or_assoc]

theorem classMatch_length {p q : Bytes} {c : UInt8} {m : Bool}
    (found : classMatch p c = some (m, q)) : q.length < p.length := by
  have shorter : (inverted p).2.length ≤ p.length := by
    unfold inverted
    split
    · split <;> simp
    · simp
  rw [classMatch, classLoop_eq, Option.map_map, Option.map_eq_some_iff] at found
  obtain ⟨l, found, same⟩ := found
  cases same
  exact (listed_length found).trans_le shorter

/-- `agfs_q_pattern_match`. -/
def patternMatch : Bytes → Bytes → Bool
  | [], s => s.isEmpty
  | p :: pat, s =>
    if p = '*'.toUInt8 then
      if pat.dropWhile (· = '*'.toUInt8) = [] then true
      else (places s).any fun t => patternMatch (pat.dropWhile (· = '*'.toUInt8)) t
    else match s with
      | [] => false
      | c :: s =>
        if p = '?'.toUInt8 then patternMatch pat s
        else if p = '['.toUInt8 then
          match _found : classMatch pat c with
          | none => false
          | some (m, rest) => m && patternMatch rest s
        else if p = '\\'.toUInt8 then
          match pat with
          | [] => p = c && patternMatch [] s
          | q :: pat => q = c && patternMatch pat s
        else p = c && patternMatch pat s
termination_by pat => pat.length
decreasing_by
  · exact Nat.lt_succ_of_le (dropWhile_sublist _).length_le
  · simp
  · exact (classMatch_length _found).trans (Nat.lt_succ_self _)
  all_goals grind

/-! ## The language of a pattern -/

/-- Any string, or one character of a set. -/
abbrev Mark := Option (UInt8 → Bool)

def Mark.lang : Mark → Language UInt8
  | none => Set.univ
  | some f => {s | ∃ c, s = [c] ∧ f c = true}

def language (ms : List Mark) : Language UInt8 := (ms.map Mark.lang).prod

/-- What a pattern means, if each of its classes is closed. -/
inductive Reads : Bytes → List Mark → Prop where
  | done : Reads [] []
  | star {p : Bytes} {ms : List Mark} (rest : Reads p ms) :
      Reads ('*'.toUInt8 :: p) (none :: ms)
  | any {p : Bytes} {ms : List Mark} (rest : Reads p ms) :
      Reads ('?'.toUInt8 :: p) (some (fun _ => true) :: ms)
  | listed {p q : Bytes} {ranges : List (UInt8 × UInt8)} {ms : List Mark}
      (found : listed (inverted p).2 = some (ranges, q)) (rest : Reads q ms) :
      Reads ('['.toUInt8 :: p)
        (some (fun c => (ranges.any fun r => between c r.1 r.2) != (inverted p).1) :: ms)
  | escaped {c : UInt8} {p : Bytes} {ms : List Mark} (rest : Reads p ms) :
      Reads ('\\'.toUInt8 :: c :: p) (some (c = ·) :: ms)
  | backslash : Reads ['\\'.toUInt8] [some ('\\'.toUInt8 = ·)]
  | plain {c : UInt8} {p : Bytes} {ms : List Mark}
      (plain : c ∉ ['*'.toUInt8, '?'.toUInt8, '['.toUInt8, '\\'.toUInt8]) (rest : Reads p ms) :
      Reads (c :: p) (some (c = ·) :: ms)

section Language

variable {ms : List Mark} {s : Bytes}

theorem mem_language_star : s ∈ language (none :: ms) ↔ ∃ t, t <:+ s ∧ t ∈ language ms := by
  constructor
  · rintro ⟨u, -, t, inside, rfl⟩
    exact ⟨t, suffix_append u t, inside⟩
  · rintro ⟨t, ⟨u, rfl⟩, inside⟩
    exact ⟨u, trivial, t, inside, rfl⟩

theorem mem_language_one {f : UInt8 → Bool} : s ∈ language (some f :: ms) ↔
    ∃ c t, s = c :: t ∧ f c = true ∧ t ∈ language ms := by
  constructor
  · rintro ⟨u, ⟨c, rfl, holds⟩, t, inside, rfl⟩
    exact ⟨c, t, rfl, holds, inside⟩
  · rintro ⟨c, t, rfl, holds, inside⟩
    exact ⟨[c], ⟨c, rfl, holds⟩, t, inside, rfl⟩

theorem mem_places {t : Bytes} : t ∈ places s ↔ t <:+ s ∧ t ≠ [] := by
  induction s with
  | nil => simp [places]
  | cons c s ih =>
    rw [places, mem_cons, ih, suffix_cons_iff]
    constructor
    · rintro (rfl | ⟨later, some⟩)
      · simp
      · exact ⟨.inr later, some⟩
    · tauto

end Language

theorem patternMatch_stars (p s : Bytes) : patternMatch ('*'.toUInt8 :: p) s = true ↔
    p.dropWhile (· = '*'.toUInt8) = [] ∨
      ∃ t, t <:+ s ∧ t ≠ [] ∧ patternMatch (p.dropWhile (· = '*'.toUInt8)) t = true := by
  rw [patternMatch.eq_def]
  split <;> simp_all [mem_places, and_assoc]

theorem patternMatch_star (p s : Bytes) : patternMatch ('*'.toUInt8 :: p) s = true ↔
    ∃ t, t <:+ s ∧ patternMatch p t = true := by
  rw [patternMatch_stars]
  cases p with
  | nil => simp [patternMatch]
  | cons c p =>
    by_cases star : c = '*'.toUInt8
    · subst star
      simp only [patternMatch_stars]
      constructor
      · rintro (none | ⟨t, within, rest⟩)
        · exact ⟨s, suffix_rfl, .inl none⟩
        · exact ⟨t, within, .inr ⟨t, suffix_rfl, rest⟩⟩
      · rintro ⟨t, within, none | ⟨u, inner, rest⟩⟩
        · exact .inl none
        · exact .inr ⟨u, inner.trans within, rest⟩
    · -- What follows the stars does not match the empty name.
      have empty : patternMatch (c :: p) [] = false := by rw [patternMatch.eq_def]; simp [star]
      simp only [dropWhile_cons, star, decide_false, if_false, reduceCtorEq, false_or]
      refine exists_congr fun t => and_congr_right fun _ => and_iff_right_of_imp ?_
      rintro found rfl
      simp [empty] at found

/-- **The names that match are the language of the pattern.** -/
theorem patternMatch_iff {pat : List UInt8} {ms : List Mark} (reads : Reads pat ms)
    (s : List UInt8) : patternMatch pat s = true ↔ s ∈ language ms := by
  induction reads generalizing s with
  | done => simp [patternMatch, language, Language.mem_one]
  | star rest ih => simp only [patternMatch_star, mem_language_star, ih]
  | any rest ih | escaped rest ih =>
    rw [patternMatch.eq_def, mem_language_one]
    cases s <;> simp +decide [ih]
  | @listed p q ranges ms found rest ih =>
    rw [patternMatch.eq_def, mem_language_one]
    cases s with
    | nil => simp +decide
    | cons c s =>
      simp +decide only [reduceIte]
      split
      all_goals
        rename_i read
        rw [classMatch, classLoop_eq, found] at read
        cases read
      simp [ih]
  | backslash =>
    rw [mem_language_one]
    cases s <;> simp +decide [patternMatch, language]
    exact fun _ => eq_comm
  | plain plain rest ih =>
    rw [patternMatch.eq_def, mem_language_one]
    simp only [mem_cons, not_or] at plain
    cases s <;> simp +decide [plain, ih]

/-- `[!a]*`: one character but `a`, and any string. -/
theorem patternMatch_iff_class :
    patternMatch ['['.toUInt8, '!'.toUInt8, 'a'.toUInt8, ']'.toUInt8, '*'.toUInt8] [98, 99] = true ↔
      [98, 99] ∈ language
        [some fun c => ([(97, 97)].any fun r => between c r.1 r.2) != true, none] :=
  patternMatch_iff (.listed rfl (.star .done)) _

end Argentum.Agfs.Query
