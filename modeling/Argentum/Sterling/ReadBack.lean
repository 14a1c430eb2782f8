/-
# Sterling.ReadBack — C reads the emitted expressions back

The text of a tree gives the tree again exactly if the tree has none of a few shapes
(`emission_iff`): a sign under the same sign, which C reads as `--` or `++`; a prefix operator
under a member access or a call, where `emit_tight` leaves out parentheses; an integer under a
member access, which C reads as one number; names that C reserves; integers with a leading zero
that are not octal; and the cases of an enum, which are emitted as one name on purpose.

"Only if" counts: what C derives from the text has at least the parentheses the tree needs and
exactly its member accesses, and the text has fewer where the emitter leaves one out.
-/
import Mathlib.Algebra.Order.BigOperators.Group.List
import Mathlib.Algebra.Order.Group.Nat
import Argentum.Sterling.CGrammar
import Argentum.Sterling.Emit
import Mathlib.Algebra.GroupWithZero.Nat

namespace Argentum.Sterling

open Lib.MaximalMunch List C

/-! ## The shapes that are read back -/

variable (enums : List Enum)

def isUnary : Expr → Bool
  | .unary _ _ => true
  | _ => false

def isInt : Expr → Bool
  | .int _ => true
  | _ => false

/-- The operand begins with the same sign. -/
def isDoubled (op : PrefixOp) : Expr → Bool
  | .unary op' _ => op == op' && op != .not
  | _ => false

mutual

/-- C reads the tree back from its text. -/
def Clean : Expr → Prop
  | .int t => C.isIntConstant t = true
  | .name t => C.keywords.contains t = false
  | .member base field =>
    Clean base ∧ C.keywords.contains field = false ∧ isUnary base = false ∧
      isInt base = false ∧ enumCase enums base field = none
  | .call base args => Clean base ∧ isUnary base = false ∧ CleanArgs args
  | .unary op operand => Clean operand ∧ isDoubled op operand = false
  | .binary left _ right => Clean left ∧ Clean right
  | .assign target value => Clean target ∧ Clean value

def CleanArgs : List Expr → Prop
  | [] => True
  | a :: as => Clean a ∧ CleanArgs as

end

variable {enums} {args : List Expr} {e : Expr} {ts : List C.Tok} {k : Nat} {op : PrefixOp}

/-! ## A clean tree is read back -/

/-- The grammar's level of a tree without parentheses. -/
def level : Expr → Nat
  | .int _ => 13
  | .name _ => 13
  | .member _ _ => 12
  | .call _ _ => 12
  | .unary _ _ => 11
  | .binary _ op _ => op.level
  | .assign _ _ => 0

theorem pending_rparen (text : List Char) : pending isSpace joins [] (text ++ [')']) = [')'] := by
  rw [pending_append, pending, if_neg (by decide), joins_closing rfl, if_neg (by decide), pending]

theorem word_no_number {t : List Char} (word : isWord t = true) : isNumber t = false := by
  obtain ⟨c, cs, rfl, letter, _⟩ := isWord_cons word
  have dot : c ≠ '.' := by
    rintro rfl
    exact absurd letter (by decide)
  rw [isNumber_cons dot, not_digit_of_nondigit letter]

theorem emitTight_member {field : List Char} (plain : enumCase enums e field = none) :
    emitTight enums (.member e field) = emitTight enums e ++ '.' :: field := by
  simp [emitTight, parens, isLoose, emitExpr, plain]

theorem emitTight_call : emitTight enums (.call e args) =
    emitTight enums e ++ '(' :: emitArgs enums args ++ [')'] := by
  simp [emitTight, parens, isLoose, emitExpr]

theorem endsInNumber_rparen (text : List Char) : endsInNumber (text ++ [')']) = false := by
  rw [endsInNumber, pending_rparen]
  rfl

theorem endsInNumber_tight (formed : e.Formed) (clean : Clean enums e)
    (unary : isUnary e = false) (int : isInt e = false) :
    endsInNumber (emitTight enums e) = false := by
  induction e with
  | int | unary => simp [isInt, isUnary] at int unary
  | name t =>
    obtain ⟨c, cs, rfl, letter, rest⟩ := isWord_cons formed
    have body : wordChar c = true := by rw [wordChar, letter, Bool.true_or]
    have piece : pending isSpace joins [] (emitTight enums (.name (c :: cs))) = c :: cs :=
      (munch_word body rest).2
    rw [endsInNumber, piece]
    exact word_no_number formed
  | member base field ih =>
    obtain ⟨cleanBase, _, baseUnary, baseInt, plain⟩ := clean
    have apart := ih formed.1 cleanBase baseUnary baseInt
    rw [endsInNumber, emitTight_member plain, (tokens_member formed.2 apart).2]
    exact word_no_number formed.2
  | call base args =>
    rw [emitTight_call]
    exact endsInNumber_rparen _
  | binary | assign => exact endsInNumber_rparen ('(' :: _)

theorem head_tight (formed : e.Formed) (clean : Clean enums e) (unary : isUnary e = false) :
    ∃ c cs, emitTight enums e = c :: cs ∧ (wordChar c = true ∨ c = '(') := by
  induction e with
  | int t =>
    obtain ⟨c, cs, rfl, digit, _⟩ := isDigits_cons formed
    exact ⟨c, cs, rfl, .inl (by simp [wordChar, digit])⟩
  | name t =>
    obtain ⟨c, cs, rfl, letter, _⟩ := isWord_cons formed
    exact ⟨c, cs, rfl, .inl (by simp [wordChar, letter])⟩
  | member base field ih =>
    obtain ⟨cleanBase, _, baseUnary, _, plain⟩ := clean
    obtain ⟨c, cs, text, starts⟩ := ih formed.1 cleanBase baseUnary
    refine ⟨c, cs ++ '.' :: field, ?_, starts⟩
    rw [emitTight_member plain, text, cons_append]
  | call base args ih =>
    obtain ⟨cleanBase, baseUnary, _⟩ := clean
    obtain ⟨c, cs, text, starts⟩ := ih formed.1 cleanBase baseUnary
    refine ⟨c, cs ++ '(' :: emitArgs enums args ++ [')'], ?_, starts⟩
    rw [emitTight_call, text, cons_append, cons_append]
  | unary => simp [isUnary] at unary
  | binary | assign => exact ⟨'(', _, rfl, .inr rfl⟩

theorem signed_unary (op op' : PrefixOp) (operand : Expr) :
    signed op (emitTight enums (.unary op' operand)) = isDoubled op (.unary op' operand) := by
  have text : emitTight enums (.unary op' operand) = op'.char :: emitTight enums operand := rfl
  cases op <;> cases op' <;> simp [text, signed, isDoubled, PrefixOp.char]

theorem signed_tight (formed : e.Formed) (clean : Clean enums e)
    (single : isDoubled op e = false) : signed op (emitTight enums e) = false := by
  cases unary : isUnary e with
  | true =>
    cases e with
    | unary op' operand => exact (signed_unary op op' operand).trans single
    | _ => cases unary
  | false =>
    obtain ⟨c, cs, text, starts⟩ := head_tight formed clean unary
    rw [text, signed]
    cases op <;> obtain body | rfl := starts <;> try rfl
    all_goals
      rw [Bool.and_eq_false_iff, beq_eq_false_iff_ne]
      refine .inl fun same => ?_
      cases same
      exact absurd body (by decide)

theorem Clean.args_iff : CleanArgs enums args ↔ ∀ a ∈ args, Clean enums a := by
  induction args with
  | nil => simp [CleanArgs]
  | cons a args ih => simp [CleanArgs, ih]

theorem Clean.legible (formed : e.Formed) (clean : Clean enums e) : Legible enums e := by
  induction e with
  | int | name => exact clean
  | member base field ih =>
    obtain ⟨cleanBase, word, unary, int, plain⟩ := clean
    rw [Legible, plain]
    exact ⟨ih formed.1 cleanBase, word, endsInNumber_tight formed.1 cleanBase unary int⟩
  | call base args ih each =>
    obtain ⟨cleanBase, _, cleanArgs⟩ := clean
    refine ⟨ih formed.1 cleanBase, Legible.args_iff.mpr fun a inside => ?_⟩
    exact each a inside (argsFormed_iff.mp formed.2 a inside) (args_iff.mp cleanArgs a inside)
  | unary op operand ih => exact ⟨ih formed clean.1, signed_tight formed clean.1 clean.2⟩
  | binary left op right ih ih' => exact ⟨ih formed.1 clean.1, ih' formed.2 clean.2⟩
  | assign target value ih ih' => exact ⟨ih formed.1 clean.1, ih' formed.2.1 clean.2⟩

theorem derives_group (wrap : Bool) (derived : C.Derives (.expr (level e) e) ts) (low : k ≤ 13)
    (fits : wrap = false → k ≤ level e) : C.Derives (.expr k e) (group wrap ts) := by
  cases wrap with
  | false => exact derived.at_level (fits rfl)
  | true => exact (C.Derives.group (derived.at_level (Nat.zero_le _))).at_level low

theorem level_of_tight (tight : isLoose e = false) : 11 ≤ level e := by
  cases e <;> simp_all [isLoose, level]

theorem level_of_chain (tight : isLoose e = false) (unary : isUnary e = false) : 12 ≤ level e := by
  cases e <;> simp_all [isLoose, level, isUnary]

theorem wrapsOperand_iff (op : BinaryOp) (isRight : Bool) (e : Expr) :
    wrapsOperand op.level isRight e = true ↔ level e < op.level + isRight.toNat := by
  have pos := op.level_pos
  have le := op.level_le
  cases e with
  | binary left op' right =>
    simp only [wrapsOperand, operatorPrecedence_text, level]
    cases isRight with
    | false => simp
    | true =>
      rw [Bool.toNat_true, Nat.lt_succ_iff_lt_or_eq]
      simp
  | assign target value =>
    simp only [wrapsOperand, level, true_iff]
    omega
  | _ =>
    have := Bool.toNat_le isRight
    simp only [wrapsOperand, level, Bool.false_eq_true, false_iff]
    omega

theorem derives_moreArgs {a : Expr} (derived : C.Derives (.expr 0 a) ts)
    (each : ∀ b ∈ args, C.Derives (.expr 0 b) (toksOf enums b)) :
    C.Derives (.args (a :: args)) (ts ++ moreArgToks enums args) := by
  induction args generalizing a ts with
  | nil => simpa [moreArgToks] using C.Derives.last derived
  | cons b args ih =>
    have others := ih (each b mem_cons_self) (forall_mem_of_forall_mem_cons each)
    simpa [moreArgToks] using C.Derives.more derived others

/-- The tokens of a clean tree are derived from it. -/
theorem Clean.derives (formed : e.Formed) (clean : Clean enums e) :
    C.Derives (.expr (level e) e) (toksOf enums e) := by
  induction e with
  | int t => exact .int t
  | name t => exact .name t
  | member base field ih =>
    obtain ⟨cleanBase, _, unary, _, plain⟩ := clean
    have derived := derives_group (isLoose base) (ih formed.1 cleanBase)
      (by omega) fun tight => level_of_chain tight unary
    rw [toksOf, plain]
    exact .member derived
  | call base args ih each =>
    obtain ⟨cleanBase, unary, cleanArgs⟩ := clean
    have derived := derives_group (isLoose base) (ih formed.1 cleanBase)
      (by omega) fun tight => level_of_chain tight unary
    refine .call derived ?_
    have every : ∀ a ∈ args, C.Derives (.expr 0 a) (toksOf enums a) := fun a inside =>
      (each a inside (argsFormed_iff.mp formed.2 a inside)
        (args_iff.mp cleanArgs a inside)).at_level (Nat.zero_le _)
    cases args with
    | nil => exact .empty
    | cons a args =>
      exact derives_moreArgs (every a mem_cons_self) (forall_mem_of_forall_mem_cons every)
  | unary op operand ih =>
    exact .unary (derives_group _ (ih formed clean.1) (by omega) level_of_tight)
  | binary left op right ih ih' =>
    have le := op.level_le
    refine .binary (derives_group _ (ih formed.1 clean.1) (by omega) fun free => ?_)
      (derives_group _ (ih' formed.2 clean.2) (by omega) fun free => ?_)
    · have := (wrapsOperand_iff op false left).not.mp (by simp [free])
      simpa using this
    · have := (wrapsOperand_iff op true right).not.mp (by simp [free])
      simpa using this
  | assign target value ih ih' =>
    refine .assign ((ih formed.1 clean.1).at_level ?_)
      ((ih' formed.2.1 clean.2).at_level (Nat.zero_le _))
    have plain := formed.2.2
    cases target with
    | binary left op right => exact op.level_pos
    | assign => cases plain
    | _ => simp [level]

/-! ## What is read back is clean -/

/-- A tree of its level has to be parenthesised at the level `k`. -/
def cost (k : Nat) (e : Expr) : Nat := if level e < k then 1 else 0

mutual

/-- The parentheses that a tree needs inside, those of its calls included. -/
def parensIn : Expr → Nat
  | .int _ => 0
  | .name _ => 0
  | .member base _ => parensIn base + cost 12 base
  | .call base args => parensIn base + cost 12 base + 1 + parensInArgs args
  | .unary _ operand => parensIn operand + cost 11 operand
  | .binary left op right =>
    parensIn left + cost op.level left + (parensIn right + cost (op.level + 1) right)
  | .assign target value => parensIn target + cost 1 target + parensIn value

def parensInArgs : List Expr → Nat
  | [] => 0
  | a :: as => parensIn a + parensInArgs as

end

mutual

def membersIn : Expr → Nat
  | .int _ => 0
  | .name _ => 0
  | .member base _ => membersIn base + 1
  | .call base args => membersIn base + membersInArgs args
  | .unary _ operand => membersIn operand
  | .binary left _ right => membersIn left + membersIn right
  | .assign target value => membersIn target + membersIn value

def membersInArgs : List Expr → Nat
  | [] => 0
  | a :: as => membersIn a + membersInArgs as

end

/-- The tokens of the goal: enough parentheses, all members, and nothing else. -/
def Counted : C.Goal → List C.Tok → Prop
  | .expr k e, ts => parensIn e + cost k e ≤ ts.count .lparen ∧ ts.count .dot = membersIn e ∧
      ∀ t, .other t ∉ ts
  | .args as, ts => parensInArgs as ≤ ts.count .lparen ∧ ts.count .dot = membersInArgs as ∧
      ∀ t, .other t ∉ ts

theorem cost_le (k : Nat) (e : Expr) : cost k e ≤ 1 := by
  unfold cost
  split_ifs <;> omega

theorem cost_mono {j : Nat} (le : j ≤ k) (e : Expr) : cost j e ≤ cost k e := by
  unfold cost
  split_ifs <;> omega

theorem cost_self (e : Expr) : cost (level e) e = 0 := if_neg (Nat.lt_irrefl _)

theorem cost_zero (e : Expr) : cost 0 e = 0 := if_neg (Nat.not_lt_zero _)

theorem Derives.counted {g : C.Goal} (derived : C.Derives g ts) : Counted g ts := by
  induction derived with
  | int | name => exact ⟨by simp [parensIn, cost, level], by simp [membersIn], by simp⟩
  | @group e ts _ ih =>
    obtain ⟨parens, dots, plain⟩ := ih
    have := cost_le 13 e
    refine ⟨?_, by simpa using dots, by simpa using plain⟩
    simp only [count_cons_self, count_append]
    omega
  | @member e ts f _ ih =>
    obtain ⟨parens, dots, plain⟩ := ih
    refine ⟨?_, by simp [membersIn, dots], by simpa using plain⟩
    rw [show cost 12 (.member e f) = 0 from rfl, parensIn]
    simpa using parens
  | @call e ts as us _ _ ih args =>
    obtain ⟨parens, dots, plain⟩ := ih
    obtain ⟨parens', dots', plain'⟩ := args
    refine ⟨?_, by simp [membersIn, dots, dots'], by simp [plain, plain']⟩
    rw [show cost 12 (.call e as) = 0 from rfl, parensIn]
    simp only [count_append, count_cons_self]
    omega
  | @unary e ts op _ ih =>
    obtain ⟨parens, dots, plain⟩ := ih
    rw [Counted, show cost 11 (.unary op e) = 0 from rfl, parensIn, membersIn]
    cases op <;> exact ⟨by simpa [prefixTok] using parens, by simpa [prefixTok] using dots,
      by simpa [prefixTok] using plain⟩
  | @binary l r ts us op _ _ ih ih' =>
    obtain ⟨parens, dots, plain⟩ := ih
    obtain ⟨parens', dots', plain'⟩ := ih'
    refine ⟨?_, by simp [membersIn, dots, dots'], by simp [plain, plain']⟩
    have none : cost op.level (.binary l op r) = 0 := cost_self (.binary l op r)
    rw [parensIn]
    simp only [count_append, count_cons]
    omega
  | @assign t v ts us _ _ ih ih' =>
    obtain ⟨parens, dots, plain⟩ := ih
    obtain ⟨parens', dots', plain'⟩ := ih'
    refine ⟨?_, by simp [membersIn, dots, dots'], by simp [plain, plain']⟩
    rw [cost_zero] at parens' ⊢
    rw [parensIn]
    simp only [count_append, count_cons]
    omega
  | @lower k e ts _ ih =>
    obtain ⟨parens, dots, plain⟩ := ih
    have := cost_mono (show k ≤ k + 1 by omega) e
    exact ⟨by omega, dots, plain⟩
  | empty => exact ⟨Nat.zero_le _, rfl, by simp⟩
  | last _ ih =>
    obtain ⟨parens, dots, plain⟩ := ih
    rw [cost_zero] at parens
    exact ⟨by simpa [parensInArgs] using parens, by simpa [membersInArgs] using dots, plain⟩
  | more _ _ ih ih' =>
    obtain ⟨parens, dots, plain⟩ := ih
    obtain ⟨parens', dots', plain'⟩ := ih'
    refine ⟨?_, ?_, by simp [plain, plain']⟩
    · rw [parensInArgs]
      simp only [count_append, count_cons]
      omega
    · rw [membersInArgs]
      simp only [count_append, count_cons, reduceCtorEq, beq_iff_eq, if_false]
      omega

theorem count_group (wrap : Bool) (ts : List C.Tok) :
    (group wrap ts).count .lparen = ts.count .lparen + wrap.toNat ∧
      (group wrap ts).count .dot = ts.count .dot := by
  cases wrap <;> simp [group]

theorem count_argToks {x : C.Tok} (other : x ≠ .comma) (args : List Expr) :
    (argToks enums args).count x = (args.map fun a => (toksOf enums a).count x).sum := by
  cases args with
  | nil => rfl
  | cons a args =>
    rw [argToks, moreArgToks_eq, count_append, map_cons, sum_cons]
    congr 1
    induction args with
    | nil => rfl
    | cons b args ih =>
      rw [flatMap_cons, count_append, ih, count_cons_of_ne other.symm, map_cons, sum_cons]

theorem parensInArgs_eq (args : List Expr) : parensInArgs args = (args.map parensIn).sum := by
  induction args with
  | nil => rfl
  | cons a args ih => rw [parensInArgs, ih, map_cons, sum_cons]

theorem membersInArgs_eq (args : List Expr) : membersInArgs args = (args.map membersIn).sum := by
  induction args with
  | nil => rfl
  | cons a args ih => rw [membersInArgs, ih, map_cons, sum_cons]

theorem isLoose_cost (e : Expr) : (isLoose e).toNat = cost 11 e := by
  cases e with
  | binary left op right =>
    have loose : level (.binary left op right) < 11 := Nat.lt_succ_of_le op.level_le
    rw [cost, if_pos loose]
    rfl
  | _ => rfl

theorem chain_cost (e : Expr) : cost 12 e = (isLoose e).toNat + (isUnary e).toNat := by
  cases e with
  | binary left op right =>
    have loose : level (.binary left op right) < 12 := by
      have := op.level_le
      exact Nat.lt_of_le_of_lt this (by omega)
    rw [cost, if_pos loose]
    rfl
  | _ => rfl

theorem wrapsOperand_cost (op : BinaryOp) (isRight : Bool) (e : Expr) :
    (wrapsOperand op.level isRight e).toNat = cost (op.level + isRight.toNat) e := by
  unfold cost
  split_ifs with loose
  · rw [(wrapsOperand_iff op isRight e).mpr loose]
    rfl
  · rw [Bool.eq_false_iff.mpr fun wraps => loose ((wrapsOperand_iff op isRight e).mp wraps)]
    rfl

variable (enums) in
/-- The text has no more parentheses and member accesses than the tree needs. -/
theorem toksOf_count_le (e : Expr) :
    (toksOf enums e).count .lparen ≤ parensIn e ∧ (toksOf enums e).count .dot ≤ membersIn e := by
  induction e with
  | int | name => simp [toksOf, parensIn, membersIn]
  | member base field ih =>
    have := isLoose_cost base
    have := cost_mono (show 11 ≤ 12 by omega) base
    rw [toksOf, parensIn, membersIn]
    split
    · simp
    · simp only [count_append, count_group]
      simp
      omega
  | call base args ih each =>
    have := isLoose_cost base
    have := cost_mono (show 11 ≤ 12 by omega) base
    have args₁ : (argToks enums args).count .lparen ≤ parensInArgs args := by
      rw [count_argToks (by simp), parensInArgs_eq]
      exact sum_le_sum fun a inside => (each a inside).1
    have args₂ : (argToks enums args).count .dot ≤ membersInArgs args := by
      rw [count_argToks (by simp), membersInArgs_eq]
      exact sum_le_sum fun a inside => (each a inside).2
    rw [toksOf, parensIn, membersIn]
    simp only [count_append, count_group]
    simp
    omega
  | unary op operand ih =>
    have := isLoose_cost operand
    have sign : prefixTok op ≠ .lparen ∧ prefixTok op ≠ .dot := by
      cases op <;> simp [prefixTok]
    rw [toksOf, parensIn, membersIn, count_cons_of_ne sign.1, count_cons_of_ne sign.2,
      (count_group _ _).1, (count_group _ _).2]
    omega
  | binary left op right ih ih' =>
    have := wrapsOperand_cost op false left
    have := wrapsOperand_cost op true right
    rw [toksOf, parensIn, membersIn]
    simp [count_group] at *
    omega
  | assign target value ih ih' =>
    rw [toksOf, parensIn, membersIn]
    simp
    omega

theorem each_of_sum {f g : Expr → Nat} (le : ∀ a ∈ args, f a ≤ g a)
    (all : (args.map g).sum ≤ (args.map f).sum) : ∀ a ∈ args, g a ≤ f a := by
  intro a inside
  by_contra less
  exact absurd all (Nat.not_le_of_lt (sum_lt_sum f g le ⟨a, inside, Nat.lt_of_not_le less⟩))

theorem not_int_of_ends (formed : e.Formed)
    (ends : endsInNumber (emitTight enums e) = false) : isInt e = false := by
  cases e with
  | int t =>
    obtain ⟨c, cs, rfl, digit, rest⟩ := isDigits_cons formed
    have body : wordChar c = true := by rw [wordChar, digit, Bool.or_true]
    have dot : c ≠ '.' := by
      rintro rfl
      exact absurd digit (by decide)
    have piece : pending isSpace joins [] (emitTight enums (.int (c :: cs))) = c :: cs :=
      (munch_word body rest).2
    rw [endsInNumber, piece, isNumber_cons dot, digit] at ends
    cases ends
  | _ => rfl

theorem single_of_signed
    (apart : signed op (emitTight enums e) = false) : isDoubled op e = false := by
  cases e with
  | unary op' operand => exact (signed_unary op op' operand).symm.trans apart
  | _ => rfl

/-- A legible text with all the parentheses and member accesses is that of a clean tree. -/
theorem clean_of_count (legible : Legible enums e) (formed : e.Formed)
    (parens : parensIn e ≤ (toksOf enums e).count .lparen)
    (dots : membersIn e ≤ (toksOf enums e).count .dot) : Clean enums e := by
  induction e with
  | int | name => exact legible
  | member base field ih =>
    obtain ⟨upper, upper'⟩ := toksOf_count_le enums base
    have chained := chain_cost base
    rw [toksOf] at dots parens
    rw [Legible] at legible
    rw [membersIn] at dots
    rw [parensIn] at parens
    split at dots
    · simp at dots
    next plain =>
      rw [plain] at legible parens
      simp only [count_append, count_group] at dots parens
      simp only [count_cons, count_nil, reduceCtorEq, beq_iff_eq, if_false, if_true] at dots parens
      exact ⟨ih legible.1 formed.1 (by omega) (by omega), legible.2.1,
        Bool.toNat_eq_zero.mp (by omega), not_int_of_ends formed.1 legible.2.2, plain⟩
  | call base args ih each =>
    obtain ⟨upper, upper'⟩ := toksOf_count_le enums base
    have chained := chain_cost base
    have counted := fun a (_ : a ∈ args) => toksOf_count_le enums a
    rw [toksOf] at dots parens
    rw [membersIn] at dots
    rw [parensIn] at parens
    simp only [count_append, count_group, count_argToks, count_cons, count_nil,
      reduceCtorEq, beq_iff_eq, if_false, if_true, ne_eq, not_false_eq_true, parensInArgs_eq,
      membersInArgs_eq] at dots parens
    have total := sum_le_sum fun a inside => (counted a inside).1
    have total' := sum_le_sum fun a inside => (counted a inside).2
    have parens' := each_of_sum (fun a inside => (counted a inside).1) (by omega)
    have dots' := each_of_sum (fun a inside => (counted a inside).2) (by omega)
    refine ⟨ih legible.1 formed.1 (by omega) (by omega), Bool.toNat_eq_zero.mp (by omega),
      Clean.args_iff.mpr fun a inside => ?_⟩
    exact each a inside (Legible.args_iff.mp legible.2 a inside)
      (argsFormed_iff.mp formed.2 a inside) (parens' a inside) (dots' a inside)
  | unary op operand ih =>
    have loose := isLoose_cost operand
    have sign : prefixTok op ≠ .lparen ∧ prefixTok op ≠ .dot := by
      cases op <;> simp [prefixTok]
    rw [toksOf, parensIn, count_cons_of_ne sign.1, (count_group _ _).1] at parens
    rw [toksOf, count_cons_of_ne sign.2, (count_group _ _).2] at dots
    exact ⟨ih legible.1 formed (by omega) dots, single_of_signed legible.2⟩
  | binary left op right ih ih' =>
    obtain ⟨upper₁, upper₂⟩ := toksOf_count_le enums left
    obtain ⟨upper₃, upper₄⟩ := toksOf_count_le enums right
    have wraps := wrapsOperand_cost op false left
    have wraps' := wrapsOperand_cost op true right
    rw [Bool.toNat_false, Nat.add_zero] at wraps
    rw [Bool.toNat_true] at wraps'
    rw [toksOf, parensIn] at parens
    rw [toksOf, membersIn] at dots
    simp only [count_append, count_group, count_cons, reduceCtorEq, beq_iff_eq,
      if_false] at parens dots
    exact ⟨ih legible.1 formed.1 (by omega) (by omega),
      ih' legible.2 formed.2 (by omega) (by omega)⟩
  | assign target value ih ih' =>
    obtain ⟨upper₁, upper₂⟩ := toksOf_count_le enums target
    obtain ⟨upper₃, upper₄⟩ := toksOf_count_le enums value
    rw [toksOf, parensIn] at parens
    rw [toksOf, membersIn] at dots
    simp only [count_append, count_cons, reduceCtorEq, beq_iff_eq, if_false] at parens dots
    exact ⟨ih legible.1 formed.1 (by omega) (by omega),
      ih' legible.2 formed.2.1 (by omega) (by omega)⟩

theorem emission_iff (formed : e.Formed) :
    parse (tokens (emitExpr enums e)) = some e ↔ Clean enums e := by
  rw [parse_iff]
  constructor
  · intro derived
    obtain ⟨parens, dots, plain⟩ := Derives.counted derived
    have legible := (spelled formed).2 plain
    rw [(spelled formed).1 legible] at parens dots
    exact clean_of_count legible formed parens (le_of_eq dots.symm)
  · intro clean
    rw [(spelled formed).1 (clean.legible formed)]
    exact (clean.derives formed).at_level (Nat.zero_le _)

/-- **C reads back the tree of a source file from its text iff it is clean.** -/
theorem emission_faithful {src : List Char} {e : Expr} (parsed : ParsedFrom src e) :
    C.parse (C.tokens (emitExpr enums e)) = some e ↔ Clean enums e :=
  emission_iff parsed.formed

/-! ## Poles -/

/-- A statement with a needed and a superfluous pair of parentheses, a label and a line behind. -/
def tidySource : List Char := "x = -(a + b) * (f(to: c.d, 10))\ny".toList

def tidyTree : Expr :=
  .assign (.name ['x'])
    (.binary (.unary .neg (.binary (.name ['a']) .add (.name ['b']))) .mul
      (.call (.name ['f']) [.member (.name ['c']) ['d'], .int ['1', '0']]))

theorem tidyTree_parsed : ParsedFrom tidySource tidyTree :=
  ⟨20, ⟨lexAll tidySource, 1⟩, _, suffix_refl _, .inr rfl⟩

theorem emission_faithful_tidy : C.parse (C.tokens (emitExpr [] tidyTree)) = some tidyTree := by
  apply (emission_faithful tidyTree_parsed).mpr
  simp [tidyTree, Clean, CleanArgs]
  decide

/-- `--x`, which Sterling reads as two prefix operators. -/
def twiceNegated : Expr := .unary .neg (.unary .neg (.name ['x']))

/-- **Two signs become a decrement**: the text of `-(-x)` is `--x`. -/
theorem twiceNegated_lost :
    ParsedFrom "-(-x)".toList twiceNegated ∧
      C.parse (C.tokens (emitExpr [] twiceNegated)) ≠ some twiceNegated := by
  refine ⟨⟨20, ⟨lexAll "-(-x)".toList, 1⟩, _, suffix_refl _, .inl rfl⟩, ?_⟩
  have refused : parse (tokens (emitExpr [] twiceNegated)) = none := rfl
  exact nofun

end Argentum.Sterling
