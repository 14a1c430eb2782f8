/-
# Sterling.CGrammar — the expressions of C

The part of C's expression grammar that has the trees of `CTokens`. The grammar is stated as C
states it, one level per row of the precedence table (`Derives`); the parser is a recursive
descent with precedence climbing. They agree (`parse_iff`), so a token list has at most one tree.

Of assignment only the precedence is kept: C's grammar wants a unary expression on the left, C's
compilers read any binary one and complain later about what may be assigned to.
-/
import Argentum.Sterling.CTokens

namespace Argentum.Sterling.C

open List
open Option (bind_eq_bind bind_eq_some_iff bind_some)

/-! ## The grammar -/

/-- What a token list can be derived from: an expression of a level (0 assignment, 1 to 10 the
binary operators, 11 unary, 12 postfix, 13 primary) or the arguments of a call. -/
inductive Goal where
  | expr (level : Nat) (e : Expr)
  | args (as : List Expr)

inductive Derives : Goal → List Tok → Prop where
  | int (t) : Derives (.expr 13 (.int t)) [.int t]
  | name (t) : Derives (.expr 13 (.name t)) [.name t]
  | group {e ts} : Derives (.expr 0 e) ts → Derives (.expr 13 e) (.lparen :: ts ++ [.rparen])
  | member {e ts f} : Derives (.expr 12 e) ts →
      Derives (.expr 12 (.member e f)) (ts ++ [.dot, .name f])
  | call {e ts as us} : Derives (.expr 12 e) ts → Derives (.args as) us →
      Derives (.expr 12 (.call e as)) (ts ++ .lparen :: us ++ [.rparen])
  | unary {e ts op} : Derives (.expr 11 e) ts →
      Derives (.expr 11 (.unary op e)) (prefixTok op :: ts)
  | binary {l r ts us} {op : BinaryOp} : Derives (.expr op.level l) ts →
      Derives (.expr (op.level + 1) r) us →
      Derives (.expr op.level (.binary l op r)) (ts ++ .op op :: us)
  | assign {t v ts us} : Derives (.expr 1 t) ts → Derives (.expr 0 v) us →
      Derives (.expr 0 (.assign t v)) (ts ++ .assign :: us)
  | lower {k e ts} : Derives (.expr (k + 1) e) ts → Derives (.expr k e) ts
  | empty : Derives (.args []) []
  | last {e ts} : Derives (.expr 0 e) ts → Derives (.args [e]) ts
  | more {e f as ts us} : Derives (.expr 0 e) ts → Derives (.args (f :: as)) us →
      Derives (.args (e :: f :: as)) (ts ++ .comma :: us)

variable {k : Nat} {us : List Tok} {as : List Expr} {g : Goal} {rest : List Tok}

theorem Derives.at_level {j : Nat} {e : Expr} {ts : List Tok} (derived : Derives (.expr k e) ts)
    (le : j ≤ k) : Derives (.expr j e) ts := by
  induction le with
  | refl => exact derived
  | step _ ih => exact ih (.lower derived)

/-! ## The parser -/

mutual

/-- An assignment expression. -/
def exprFrom : Nat → List Tok → Option (Expr × List Tok)
  | 0, _ => none
  | n + 1, ts => do
      let (left, rest) ← binaryFrom n 1 ts
      match rest with
      | .assign :: us => do
          let (value, vs) ← exprFrom n us
          some (.assign left value, vs)
      | _ => some (left, rest)

/-- An expression whose operators have at least the precedence `least`. -/
def binaryFrom : Nat → Nat → List Tok → Option (Expr × List Tok)
  | 0, _, _ => none
  | n + 1, least, ts => do
      let (left, rest) ← unaryFrom n ts
      climb n least left rest

def climb : Nat → Nat → Expr → List Tok → Option (Expr × List Tok)
  | 0, _, _, _ => none
  | n + 1, least, left, ts =>
    match ts with
    | .op op :: us =>
      if least ≤ op.level then do
        let (right, vs) ← binaryFrom n (op.level + 1) us
        climb n least (.binary left op right) vs
      else some (left, ts)
    | _ => some (left, ts)

def unaryFrom : Nat → List Tok → Option (Expr × List Tok)
  | 0, _ => none
  | n + 1, ts =>
    match ts.head?.bind prefixOf with
    | some op => do
        let (operand, rest) ← unaryFrom n ts.tail
        some (.unary op operand, rest)
    | none => do
        let (e, rest) ← primaryFrom n ts
        postfixFrom n e rest

def primaryFrom : Nat → List Tok → Option (Expr × List Tok)
  | 0, _ => none
  | n + 1, ts =>
    match ts with
    | .int t :: rest => some (.int t, rest)
    | .name t :: rest => some (.name t, rest)
    | .lparen :: us => do
        let (e, rest) ← exprFrom n us
        match rest with
        | .rparen :: vs => some (e, vs)
        | _ => none
    | _ => none

def postfixFrom : Nat → Expr → List Tok → Option (Expr × List Tok)
  | 0, _, _ => none
  | n + 1, e, ts =>
    match ts with
    | .dot :: .name f :: rest => postfixFrom n (.member e f) rest
    | .dot :: _ => none
    | .lparen :: .rparen :: rest => postfixFrom n (.call e []) rest
    | .lparen :: us => do
        let (as, rest) ← argsFrom n us
        postfixFrom n (.call e as) rest
    | _ => some (e, ts)

/-- At least one argument, and the closing parenthesis. -/
def argsFrom : Nat → List Tok → Option (List Expr × List Tok)
  | 0, _ => none
  | n + 1, ts => do
      let (e, rest) ← exprFrom n ts
      match rest with
      | .comma :: us => do
          let (as, vs) ← argsFrom n us
          some (e :: as, vs)
      | .rparen :: vs => some ([e], vs)
      | _ => none

end

def parse (ts : List Tok) : Option Expr :=
  match exprFrom (8 * ts.length + 4) ts with
  | some (e, []) => some e
  | _ => none

/-! ## What is parsed is derived -/

/-- The list does not go on with an operator of the precedence `k` or a higher one. -/
def Below (k : Nat) (ts : List Tok) : Prop := ∀ op us, ts = .op op :: us → op.level < k

/-- What every parsing function has read when it succeeds, with fuel `n`. -/
structure Sound (n : Nat) : Prop where
  expr : ∀ {ts e us}, exprFrom n ts = some (e, us) → ∃ xs, ts = xs ++ us ∧ Derives (.expr 0 e) xs
  binary : ∀ {least ts e us}, binaryFrom n least ts = some (e, us) → least ≤ 11 →
    ∃ xs, ts = xs ++ us ∧ Derives (.expr least e) xs ∧ Below least us
  climb : ∀ {least k left zs ts e us}, climb n least left ts = some (e, us) → least ≤ k →
    Derives (.expr k left) zs → Below (k + 1) ts →
    ∃ xs, ts = xs ++ us ∧ Derives (.expr least e) (zs ++ xs) ∧ Below least us
  unary : ∀ {ts e us}, unaryFrom n ts = some (e, us) → ∃ xs, ts = xs ++ us ∧ Derives (.expr 11 e) xs
  primary : ∀ {ts e us}, primaryFrom n ts = some (e, us) →
    ∃ xs, ts = xs ++ us ∧ Derives (.expr 13 e) xs
  chain : ∀ {base zs ts e us}, postfixFrom n base ts = some (e, us) →
    Derives (.expr 12 base) zs → ∃ xs, ts = xs ++ us ∧ Derives (.expr 12 e) (zs ++ xs)
  args : ∀ {ts as us}, argsFrom n ts = some (as, us) →
    ∃ xs, ts = xs ++ .rparen :: us ∧ Derives (.args as) xs ∧ as ≠ []

section Step

variable {n : Nat} (sound : Sound n)

include sound

theorem exprFrom_sound {ts e us} (found : exprFrom (n + 1) ts = some (e, us)) :
    ∃ xs, ts = xs ++ us ∧ Derives (.expr 0 e) xs := by
  simp only [exprFrom, bind_eq_bind, bind_eq_some_iff] at found
  obtain ⟨⟨left, rest⟩, first, found⟩ := found
  obtain ⟨xs, rfl, derived, _⟩ := sound.binary first (by omega)
  dsimp only at found
  split at found
  · simp only [bind_eq_some_iff] at found
    obtain ⟨⟨value, vs⟩, second, rfl, rfl⟩ := found
    obtain ⟨ys, rfl, valued⟩ := sound.expr second
    exact ⟨xs ++ .assign :: ys, by simp, .assign derived valued⟩
  · obtain ⟨rfl, rfl⟩ := found
    exact ⟨xs, rfl, .lower derived⟩

theorem binaryFrom_sound {least ts e us} (found : binaryFrom (n + 1) least ts = some (e, us))
    (le : least ≤ 11) : ∃ xs, ts = xs ++ us ∧ Derives (.expr least e) xs ∧ Below least us := by
  simp only [binaryFrom, bind_eq_bind, bind_eq_some_iff] at found
  obtain ⟨⟨left, rest⟩, first, found⟩ := found
  obtain ⟨xs, rfl, derived⟩ := sound.unary first
  obtain ⟨ys, rfl, whole, below⟩ := sound.climb found le derived
    fun op _ _ => by have := op.level_le; omega
  exact ⟨xs ++ ys, by simp, whole, below⟩

theorem climb_sound {least k left zs ts e us} (found : climb (n + 1) least left ts = some (e, us))
    (le : least ≤ k) (derived : Derives (.expr k left) zs) (below : Below (k + 1) ts) :
    ∃ xs, ts = xs ++ us ∧ Derives (.expr least e) (zs ++ xs) ∧ Below least us := by
  simp only [climb] at found
  split at found
  next op vs =>
    split_ifs at found with reached
    · simp only [bind_eq_bind, bind_eq_some_iff] at found
      obtain ⟨⟨right, ws⟩, first, found⟩ := found
      obtain ⟨xs, rfl, operand, stop⟩ := sound.binary first (by have := op.level_le; omega)
      -- the operator before this one did not stop at it, so the left side has its level
      have lowered := derived.at_level (Nat.le_of_lt_succ (below op _ rfl))
      obtain ⟨ys, rfl, whole, last⟩ := sound.climb found reached (.binary lowered operand) stop
      exact ⟨.op op :: xs ++ ys, by simp, by simpa using whole, last⟩
    · obtain ⟨rfl, rfl⟩ := found
      refine ⟨[], rfl, by simpa using derived.at_level le, fun op' _ same => ?_⟩
      cases same
      omega
  next other =>
    obtain ⟨rfl, rfl⟩ := found
    exact ⟨[], rfl, by simpa using derived.at_level le, fun op us same => absurd same (other op us)⟩

theorem unaryFrom_sound {ts e us} (found : unaryFrom (n + 1) ts = some (e, us)) :
    ∃ xs, ts = xs ++ us ∧ Derives (.expr 11 e) xs := by
  simp only [unaryFrom] at found
  split at found
  next op is =>
    simp only [bind_eq_bind, bind_eq_some_iff] at found
    obtain ⟨⟨operand, rest⟩, first, rfl, rfl⟩ := found
    obtain ⟨xs, split, derived⟩ := sound.unary first
    cases ts with
    | nil => cases is
    | cons t ts =>
      obtain rfl := eq_prefixTok is
      exact ⟨prefixTok op :: xs, by rw [cons_append, ← split, tail_cons], .unary derived⟩
  · simp only [bind_eq_bind, bind_eq_some_iff] at found
    obtain ⟨⟨base, rest⟩, first, found⟩ := found
    obtain ⟨xs, rfl, derived⟩ := sound.primary first
    obtain ⟨ys, rfl, whole⟩ := sound.chain found (.lower derived)
    exact ⟨xs ++ ys, by simp, .lower whole⟩

theorem primaryFrom_sound {ts e us} (found : primaryFrom (n + 1) ts = some (e, us)) :
    ∃ xs, ts = xs ++ us ∧ Derives (.expr 13 e) xs := by
  simp only [primaryFrom] at found
  split at found
  · cases found
    exact ⟨_, rfl, .int _⟩
  · cases found
    exact ⟨_, rfl, .name _⟩
  · simp only [bind_eq_bind, bind_eq_some_iff] at found
    obtain ⟨⟨inner, rest⟩, first, found⟩ := found
    obtain ⟨xs, rfl, derived⟩ := sound.expr first
    dsimp only at found
    split at found
    · cases found
      exact ⟨.lparen :: xs ++ [.rparen], by simp, .group derived⟩
    · cases found
  · cases found

theorem postfixFrom_sound {base zs ts e us} (found : postfixFrom (n + 1) base ts = some (e, us))
    (derived : Derives (.expr 12 base) zs) :
    ∃ xs, ts = xs ++ us ∧ Derives (.expr 12 e) (zs ++ xs) := by
  simp only [postfixFrom] at found
  split at found
  next f rest =>
    obtain ⟨xs, rfl, whole⟩ := sound.chain found (.member derived)
    exact ⟨.dot :: .name f :: xs, rfl, by simpa using whole⟩
  · cases found
  next rest =>
    obtain ⟨xs, rfl, whole⟩ := sound.chain found (.call derived .empty)
    exact ⟨.lparen :: .rparen :: xs, rfl, by simpa using whole⟩
  · simp only [bind_eq_bind, bind_eq_some_iff] at found
    obtain ⟨⟨as, rest⟩, first, found⟩ := found
    obtain ⟨ys, rfl, listed, _⟩ := sound.args first
    obtain ⟨xs, rfl, whole⟩ := sound.chain found (.call derived listed)
    exact ⟨.lparen :: ys ++ .rparen :: xs, by simp, by simpa using whole⟩
  · cases found
    exact ⟨[], rfl, by simpa using derived⟩

theorem argsFrom_sound {ts as us} (found : argsFrom (n + 1) ts = some (as, us)) :
    ∃ xs, ts = xs ++ .rparen :: us ∧ Derives (.args as) xs ∧ as ≠ [] := by
  simp only [argsFrom, bind_eq_bind, bind_eq_some_iff] at found
  obtain ⟨⟨e, rest⟩, first, found⟩ := found
  obtain ⟨xs, rfl, derived⟩ := sound.expr first
  dsimp only at found
  split at found
  · simp only [bind_eq_some_iff] at found
    obtain ⟨⟨bs, vs⟩, second, rfl, rfl⟩ := found
    obtain ⟨ys, rfl, listed, some⟩ := sound.args second
    obtain ⟨b, bs, rfl⟩ := exists_cons_of_ne_nil some
    exact ⟨xs ++ .comma :: ys, by simp, .more derived listed, by simp⟩
  · cases found
    exact ⟨xs, rfl, .last derived, by simp⟩
  · cases found

end Step

theorem sound (n : Nat) : Sound n := by
  induction n with
  | zero =>
    constructor <;> intros
    all_goals simp_all only [exprFrom, binaryFrom, climb, unaryFrom, primaryFrom, postfixFrom,
      argsFrom, reduceCtorEq]
  | succ n ih =>
    exact ⟨exprFrom_sound ih, binaryFrom_sound ih, climb_sound ih, unaryFrom_sound ih,
      primaryFrom_sound ih, postfixFrom_sound ih, argsFrom_sound ih⟩

theorem parse_sound {ts : List Tok} {e : Expr} (parsed : parse ts = some e) :
    Derives (.expr 0 e) ts := by
  unfold parse at parsed
  split at parsed
  · cases parsed
    obtain ⟨xs, rfl, derived⟩ := (sound _).expr (by assumption)
    simpa using derived
  · cases parsed

/-! ## What is derived is parsed -/

/-- The list does not go on with a member or a call. -/
def Ends (ts : List Tok) : Prop := ts.head? ≠ some .dot ∧ ts.head? ≠ some .lparen

def Opens : Goal → List Tok → Prop
  | .expr k _, ts => ∃ t us, ts = t :: us ∧ t ≠ .rparen ∧ (12 ≤ k → prefixOf t = none)
  | .args as, ts => as ≠ [] → ∃ t us, ts = t :: us ∧ t ≠ .rparen

theorem Derives.opens {ts : List Tok} (derived : Derives g ts) : Opens g ts := by
  induction derived with
  | int | name | group => exact ⟨_, _, rfl, by simp, fun _ => rfl⟩
  | member _ ih | call _ _ ih | binary _ _ ih =>
    obtain ⟨t, us, rfl, closing, plain⟩ := ih
    exact ⟨t, _, by simp only [cons_append]; rfl, closing, plain⟩
  | @unary e ts op _ _ =>
    refine ⟨_, _, rfl, ?_, by omega⟩
    cases op <;> simp [prefixTok]
  | assign _ _ ih =>
    obtain ⟨t, vs, rfl, closing, _⟩ := ih
    exact ⟨t, _, by simp only [cons_append]; rfl, closing, by omega⟩
  | lower _ ih =>
    obtain ⟨t, us, rfl, closing, plain⟩ := ih
    exact ⟨t, us, rfl, closing, fun le => plain (by omega)⟩
  | empty => exact fun some => absurd rfl some
  | last _ ih =>
    obtain ⟨t, us, rfl, closing, _⟩ := ih
    exact fun _ => ⟨t, us, rfl, closing⟩
  | more _ _ ih =>
    obtain ⟨t, us, rfl, closing, _⟩ := ih
    exact fun _ => ⟨t, _, by simp only [cons_append]; rfl, closing⟩

section Reads

variable (e : Expr) (ts : List Tok)

-- What each parsing function makes of the tokens, with more of them behind and fuel for all.

def ReadsPrimary : Prop := ∀ rest n, 8 * (ts ++ rest).length + 1 ≤ n →
  primaryFrom n (ts ++ rest) = some (e, rest)

def ReadsChain : Prop := ∀ rest n, 8 * (ts ++ rest).length + 1 ≤ n →
  ∃ m, 8 * rest.length + 1 ≤ m ∧
    ((primaryFrom n (ts ++ rest)).bind fun p => postfixFrom n p.1 p.2) = postfixFrom m e rest

def ReadsUnary : Prop := ∀ rest n, Ends rest → 8 * (ts ++ rest).length + 2 ≤ n →
  unaryFrom n (ts ++ rest) = some (e, rest)

def ReadsBinary (k : Nat) : Prop := ∀ rest n least, least ≤ k → Ends rest → Below (k + 1) rest →
  8 * (ts ++ rest).length + 3 ≤ n →
  ∃ m, 8 * rest.length + 1 ≤ m ∧ binaryFrom n least (ts ++ rest) = climb m least e rest

def ReadsExpr : Prop := ∀ rest n, Ends rest → Below 1 rest → rest.head? ≠ some .assign →
  8 * (ts ++ rest).length + 4 ≤ n → exprFrom n (ts ++ rest) = some (e, rest)

def ReadsArgs (as : List Expr) : Prop := as ≠ [] → ∀ rest n,
  8 * (ts ++ .rparen :: rest).length + 5 ≤ n → argsFrom n (ts ++ .rparen :: rest) = some (as, rest)

end Reads

variable {e : Expr} {ts : List Tok}

theorem postfixFrom_ends {n : Nat} (ends : Ends rest) (fuel : 1 ≤ n) :
    postfixFrom n e rest = some (e, rest) := by
  obtain ⟨n, rfl⟩ := Nat.exists_eq_add_of_le' fuel
  simp only [postfixFrom]
  split
  · exact absurd rfl ends.1
  · exact absurd rfl ends.1
  · exact absurd rfl ends.2
  · exact absurd rfl ends.2
  · rfl

theorem climb_below {n least : Nat} (below : Below least rest) (fuel : 1 ≤ n) :
    climb n least e rest = some (e, rest) := by
  obtain ⟨n, rfl⟩ := Nat.exists_eq_add_of_le' fuel
  simp only [climb]
  split
  next op us => rw [if_neg (by have := below op us rfl; omega)]
  · rfl

theorem ReadsPrimary.chain (reads : ReadsPrimary e ts) : ReadsChain e ts := by
  intro rest n fuel
  refine ⟨n, by simp only [length_append] at fuel; omega, ?_⟩
  rw [reads rest n fuel, bind_some]

theorem ReadsChain.unary (reads : ReadsChain e ts) {t : Tok} (head : ts = t :: us)
    (plain : prefixOf t = none) : ReadsUnary e ts := by
  intro rest n ends fuel
  obtain _ | n := n
  · omega
  obtain ⟨m, enough, read⟩ := reads rest n (by omega)
  rw [postfixFrom_ends ends (by omega)] at read
  have none : (ts ++ rest).head?.bind prefixOf = none := by simp [head, plain]
  rw [unaryFrom, none]
  exact read

theorem ReadsUnary.binary (reads : ReadsUnary e ts) : ReadsBinary e ts 10 := by
  intro rest n least _ ends _ fuel
  obtain _ | n := n
  · omega
  refine ⟨n, by simp only [length_append] at fuel; omega, ?_⟩
  rw [binaryFrom, reads rest n ends (by omega)]
  rfl

theorem ReadsBinary.lower (reads : ReadsBinary e ts (k + 1)) : ReadsBinary e ts k := by
  intro rest n least le ends below fuel
  exact reads rest n least (by omega) ends (fun op us same => by have := below op us same; omega)
    fuel

theorem ReadsBinary.expr (reads : ReadsBinary e ts 1) : ReadsExpr e ts := by
  intro rest n ends below assigned fuel
  obtain _ | n := n
  · omega
  obtain ⟨m, enough, read⟩ := reads rest n 1 (Nat.le_refl 1) ends
    (fun op us same => by have := below op us same; omega) (by omega)
  rw [climb_below below (by omega)] at read
  simp only [exprFrom, read, bind_eq_bind, bind_some]
  split
  · exact absurd rfl assigned
  · rfl

theorem ReadsExpr.group (reads : ReadsExpr e ts) : ReadsPrimary e (.lparen :: ts ++ [.rparen]) := by
  intro rest n fuel
  obtain _ | n := n
  · omega
  have shape : .lparen :: ts ++ [.rparen] ++ rest = .lparen :: (ts ++ .rparen :: rest) := by simp
  rw [shape] at fuel ⊢
  have read := reads (.rparen :: rest) n ⟨by simp, by simp⟩ nofun
    (by simp) (by simp only [length_cons, length_append] at fuel ⊢; omega)
  simp only [primaryFrom, read, bind_eq_bind, bind_some]

theorem ReadsChain.member {f : List Char} (reads : ReadsChain e ts) :
    ReadsChain (.member e f) (ts ++ [.dot, .name f]) := by
  intro rest n fuel
  rw [append_assoc] at fuel ⊢
  obtain ⟨m, enough, read⟩ := reads _ n fuel
  obtain _ | m := m
  · omega
  refine ⟨m, by simp only [length_append, length_cons] at enough; omega, ?_⟩
  rw [read]
  rfl

theorem ReadsChain.call (reads : ReadsChain e ts)
    (listed : Derives (.args as) us) (args : ReadsArgs us as) :
    ReadsChain (.call e as) (ts ++ .lparen :: us ++ [.rparen]) := by
  intro rest n fuel
  have shape : ts ++ .lparen :: us ++ [.rparen] ++ rest =
      ts ++ (.lparen :: us ++ .rparen :: rest) := by simp
  rw [shape] at fuel ⊢
  obtain ⟨m, enough, read⟩ := reads _ n fuel
  obtain _ | m := m
  · omega
  refine ⟨m, by simp only [length_append, length_cons] at enough; omega, ?_⟩
  rw [read]
  cases as with
  | nil =>
    cases listed
    rfl
  | cons a as =>
    obtain ⟨t, vs, rfl, closing⟩ := listed.opens (cons_ne_nil _ _)
    have read := args (cons_ne_nil _ _) rest m
      (by simp only [length_append, length_cons] at enough ⊢; omega)
    simp only [cons_append] at read ⊢
    simp only [postfixFrom]
    split
    · simp_all
    · simp_all
    · simp_all
    next same =>
      cases same
      rw [read]
      rfl
    · simp_all

theorem ReadsUnary.unary {op : PrefixOp} (reads : ReadsUnary e ts) :
    ReadsUnary (.unary op e) (prefixTok op :: ts) := by
  intro rest n ends fuel
  obtain _ | n := n
  · omega
  have read := reads rest n ends (by simp only [cons_append, length_cons] at fuel; omega)
  have starts : (prefixTok op :: (ts ++ rest)).head?.bind prefixOf = some op := prefixOf_tok op
  simp only [cons_append, unaryFrom, starts, tail_cons, read, bind_eq_bind, bind_some]

/-- A right operand ends where an operator of its own level or a lower one follows. -/
def ReadsRight (e : Expr) (ts : List Tok) (k : Nat) : Prop := ∀ rest n, Ends rest → Below k rest →
  8 * (ts ++ rest).length + 3 ≤ n → binaryFrom n k (ts ++ rest) = some (e, rest)

theorem ReadsUnary.right (reads : ReadsUnary e ts) : ReadsRight e ts 11 := by
  intro rest n ends below fuel
  obtain _ | n := n
  · omega
  rw [binaryFrom, reads rest n ends (by omega)]
  exact climb_below below (by omega)

theorem ReadsBinary.right (reads : ReadsBinary e ts k) : ReadsRight e ts k := by
  intro rest n ends below fuel
  obtain ⟨m, enough, read⟩ := reads rest n k (Nat.le_refl k) ends
    (fun op us same => by have := below op us same; omega) fuel
  rw [read]
  exact climb_below below (by omega)

theorem ReadsBinary.binary {r : Expr} {op : BinaryOp}
    (left : ReadsBinary e ts op.level) (right : ReadsRight r us (op.level + 1)) :
    ReadsBinary (.binary e op r) (ts ++ .op op :: us) op.level := by
  intro rest n least le ends below fuel
  have shape : ts ++ .op op :: us ++ rest = ts ++ .op op :: (us ++ rest) := by simp
  rw [shape] at fuel ⊢
  obtain ⟨m, enough, read⟩ := left (.op op :: (us ++ rest)) n least le ⟨by simp, by simp⟩
    (fun op' _ same => by cases same; omega) fuel
  obtain _ | m := m
  · omega
  have operand := right rest m ends below (by simp only [length_cons] at enough; omega)
  refine ⟨m, by simp only [length_append, length_cons] at enough; omega, ?_⟩
  rw [read, climb, if_pos le, operand]
  rfl

theorem ReadsExpr.assign {v : Expr} (target : ReadsBinary e ts 1)
    (value : ReadsExpr v us) : ReadsExpr (.assign e v) (ts ++ .assign :: us) := by
  intro rest n ends below assigned fuel
  have shape : ts ++ .assign :: us ++ rest = ts ++ .assign :: (us ++ rest) := by simp
  rw [shape] at fuel ⊢
  obtain _ | n := n
  · omega
  have read := target.right (.assign :: (us ++ rest)) n ⟨by simp, by simp⟩
    nofun (by omega)
  have read' := value rest n ends below assigned
    (by simp only [length_append, length_cons] at fuel ⊢; omega)
  simp only [exprFrom, read, read', bind_eq_bind, bind_some]

theorem ReadsExpr.last (reads : ReadsExpr e ts) : ReadsArgs ts [e] := by
  intro _ rest n fuel
  obtain _ | n := n
  · omega
  have read := reads (.rparen :: rest) n ⟨by simp, by simp⟩ nofun (by simp) (by omega)
  simp only [argsFrom, read, bind_eq_bind, bind_some]

theorem ReadsExpr.more {f : Expr} (reads : ReadsExpr e ts)
    (others : ReadsArgs us (f :: as)) : ReadsArgs (ts ++ .comma :: us) (e :: f :: as) := by
  intro _ rest n fuel
  have shape : ts ++ .comma :: us ++ .rparen :: rest = ts ++ .comma :: (us ++ .rparen :: rest) := by
    simp
  rw [shape] at fuel ⊢
  obtain _ | n := n
  · omega
  have read := reads (.comma :: (us ++ .rparen :: rest)) n ⟨by simp, by simp⟩
    nofun (by simp) (by omega)
  have read' := others (cons_ne_nil _ _) rest n
    (by simp only [length_append, length_cons] at fuel ⊢; omega)
  simp only [argsFrom, read, read', bind_eq_bind, bind_some]

/-- What the function for the level of the goal makes of the tokens. -/
def Reads : Goal → List Tok → Prop
  | .args as, ts => ReadsArgs ts as
  | .expr k e, ts =>
    (k = 0 → ReadsExpr e ts) ∧ (1 ≤ k → k ≤ 10 → ReadsBinary e ts k) ∧
      (k = 11 → ReadsUnary e ts) ∧ (k = 12 → ReadsChain e ts) ∧ (13 ≤ k → ReadsPrimary e ts)

theorem Derives.reads (derived : Derives g ts) : Reads g ts := by
  induction derived with
  | int | name =>
    refine ⟨by omega, by omega, by omega, by omega, fun _ rest n fuel => ?_⟩
    obtain _ | n := n
    · omega
    rfl
  | group _ ih =>
    exact ⟨by omega, by omega, by omega, by omega, fun _ => (ih.1 rfl).group⟩
  | member _ ih =>
    exact ⟨by omega, by omega, by omega, fun _ => (ih.2.2.2.1 rfl).member, by omega⟩
  | call _ listed ih args =>
    exact ⟨by omega, by omega, by omega, fun _ => (ih.2.2.2.1 rfl).call listed args, by omega⟩
  | unary _ ih =>
    exact ⟨by omega, by omega, fun _ => (ih.2.2.1 rfl).unary, by omega, by omega⟩
  | @binary l r ts us op _ _ left right =>
    have pos := op.level_pos
    have le := op.level_le
    refine ⟨by omega, fun _ _ => (left.2.1 pos le).binary ?_, by omega, by omega, by omega⟩
    by_cases top : op.level + 1 = 11
    · rw [top] at right ⊢
      exact (right.2.2.1 rfl).right
    · exact (right.2.1 (by omega) (by omega)).right
  | assign _ _ target value =>
    exact ⟨fun _ => .assign (target.2.1 (Nat.le_refl 1) (by omega)) (value.1 rfl), by omega,
      by omega, by omega, by omega⟩
  | @lower k e ts derived ih =>
    obtain ⟨t, us, head, _, plain⟩ := derived.opens
    obtain ⟨_, binary, unary, chain, primary⟩ := ih
    refine ⟨?_, ?_, ?_, ?_, ?_⟩
    · rintro rfl
      exact (binary (by omega) (by omega)).expr
    · intro low high
      by_cases top : k = 10
      · subst top
        exact (unary rfl).binary
      · exact (binary (by omega) (by omega)).lower
    · rintro rfl
      exact (chain rfl).unary head (plain (by omega))
    · rintro rfl
      exact (primary (by omega)).chain
    · exact fun le => primary (by omega)
  | empty => exact fun some => absurd rfl some
  | last _ ih => exact (ih.1 rfl).last
  | more _ _ ih others => exact (ih.1 rfl).more others

/-- **The parser is C's grammar.** -/
theorem parse_iff : parse ts = some e ↔ Derives (.expr 0 e) ts := by
  refine ⟨parse_sound, fun derived => ?_⟩
  have read := derived.reads.1 rfl [] (8 * ts.length + 4) ⟨by simp, by simp⟩
    nofun (by simp) (by simp)
  rw [append_nil] at read
  rw [parse, read]

end Argentum.Sterling.C
