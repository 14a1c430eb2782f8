/-
# Sterling.CTokens — expression trees, and the tokens of C

The trees that Sterling and C share, and C's tokens by longest match. Strings, subscripts and the
other operators are left out; their tokens are `other`, which no tree has. The lemmas say what the
tokens of a text are that is put together from texts: parentheses, commas and blanks keep the
parts apart; a member access does so behind anything but a number.
-/
import Argentum.Lib.MaximalMunch

namespace Argentum.Sterling

open List

/-! ## Trees -/

/-- The binary operators of C, without the comma and the conditional. -/
inductive BinaryOp where
  | mul | div | rem | add | sub | shl | shr | lt | le | gt | ge | eq | ne
  | bitAnd | bitXor | bitOr | and | or
  deriving DecidableEq

/-- The prefix operators `-`, `+` and `!`. -/
inductive PrefixOp where
  | neg | pos | not
  deriving DecidableEq

/-- Expression trees. Names and literals keep their text. -/
inductive Expr where
  | int (text : List Char)
  | name (text : List Char)
  | member (base : Expr) (field : List Char)
  | call (base : Expr) (args : List Expr)
  | unary (op : PrefixOp) (operand : Expr)
  | binary (left : Expr) (op : BinaryOp) (right : Expr)
  | assign (target value : Expr)

/-- Induction with a hypothesis for every argument of a call. -/
@[elab_as_elim, induction_eliminator]
theorem Expr.induction {motive : Expr → Prop} (int : ∀ text, motive (.int text))
    (name : ∀ text, motive (.name text))
    (member : ∀ base field, motive base → motive (.member base field))
    (call : ∀ base args, motive base → (∀ a ∈ args, motive a) → motive (.call base args))
    (unary : ∀ op operand, motive operand → motive (.unary op operand))
    (binary : ∀ left op right, motive left → motive right → motive (.binary left op right))
    (assign : ∀ target value, motive target → motive value → motive (.assign target value)) :
    ∀ e, motive e
  | .int t => int t
  | .name t => name t
  | .member b f => member b f (induction int name member call unary binary assign b)
  | .call b as => call b as (induction int name member call unary binary assign b)
      fun a _ => induction int name member call unary binary assign a
  | .unary op b => unary op b (induction int name member call unary binary assign b)
  | .binary l op r => binary l op r (induction int name member call unary binary assign l)
      (induction int name member call unary binary assign r)
  | .assign t v => assign t v (induction int name member call unary binary assign t)
      (induction int name member call unary binary assign v)

def BinaryOp.text : BinaryOp → List Char
  | .mul => ['*'] | .div => ['/'] | .rem => ['%'] | .add => ['+'] | .sub => ['-']
  | .shl => ['<', '<'] | .shr => ['>', '>']
  | .lt => ['<'] | .le => ['<', '='] | .gt => ['>'] | .ge => ['>', '=']
  | .eq => ['=', '='] | .ne => ['!', '=']
  | .bitAnd => ['&'] | .bitXor => ['^'] | .bitOr => ['|'] | .and => ['&', '&'] | .or => ['|', '|']

def PrefixOp.char : PrefixOp → Char
  | .neg => '-' | .pos => '+' | .not => '!'

/-- All binary operators, for looking one up by its text. -/
def binaryOps : List BinaryOp :=
  [.mul, .div, .rem, .add, .sub, .shl, .shr, .lt, .le, .gt, .ge, .eq, .ne, .bitAnd, .bitXor,
    .bitOr, .and, .or]

def BinaryOp.ofText (text : List Char) : Option BinaryOp :=
  binaryOps.find? fun op => op.text == text

def PrefixOp.ofText (text : List Char) : Option PrefixOp :=
  [PrefixOp.neg, .pos, .not].find? fun op => [op.char] == text

/-- C's precedence, from `||` up to the multiplicative operators. -/
def BinaryOp.level : BinaryOp → Nat
  | .or => 1 | .and => 2 | .bitOr => 3 | .bitXor => 4 | .bitAnd => 5
  | .eq | .ne => 6
  | .lt | .le | .gt | .ge => 7
  | .shl | .shr => 8
  | .add | .sub => 9
  | .mul | .div | .rem => 10

theorem BinaryOp.level_pos (op : BinaryOp) : 1 ≤ op.level := by
  cases op <;> decide

theorem BinaryOp.level_le (op : BinaryOp) : op.level ≤ 10 := by
  cases op <;> decide

/-! ## Tokens -/

open BinaryOp

namespace C

open Lib.MaximalMunch

inductive Tok where
  | lparen | rparen | comma | dot | assign | bang
  | op (op : BinaryOp)
  | int (text : List Char)
  | name (text : List Char)
  | other (text : List Char)
  deriving DecidableEq

def isSpace (c : Char) : Bool :=
  c == ' ' || c == '\t' || c == '\n' || c == '\r' || c == '\x0b' || c == '\x0c'

def nondigit (c : Char) : Bool := c.isAlpha || c == '_'

def wordChar (c : Char) : Bool := nondigit c || c.isDigit

def keywords : List (List Char) :=
  ["auto", "break", "case", "char", "const", "continue", "default", "do", "double", "else", "enum",
    "extern", "float", "for", "goto", "if", "inline", "int", "long", "register", "restrict",
    "return", "short", "signed", "sizeof", "static", "struct", "switch", "typedef", "union",
    "unsigned", "void", "volatile", "while", "_Alignas", "_Alignof", "_Atomic", "_Bool",
    "_Complex", "_Generic", "_Imaginary", "_Noreturn", "_Static_assert", "_Thread_local"].map
    String.toList

/-- Punctuators of more than one character, and what opens a comment. `...` and `%:%:`, whose
beginnings are no punctuators, are left out. -/
def punctuators : List (List Char) :=
  [['-', '>'], ['+', '+'], ['-', '-'], ['<', '<'], ['>', '>'], ['<', '='], ['>', '='], ['=', '='],
    ['!', '='], ['&', '&'], ['|', '|'], ['*', '='], ['/', '='], ['%', '='], ['+', '='], ['-', '='],
    ['<', '<', '='], ['>', '>', '='], ['&', '='], ['^', '='], ['|', '='], ['#', '#'], ['<', ':'],
    [':', '>'], ['<', '%'], ['%', '>'], ['%', ':'], ['/', '/'], ['/', '*']]

/-- The piece is a preprocessing number so far. -/
def isNumber : List Char → Bool
  | '.' :: c :: _ => c.isDigit
  | c :: _ => c.isDigit
  | [] => false

/-- The piece with the character is still one preprocessing token. -/
def joins (piece : List Char) (c : Char) : Bool :=
  if isNumber piece then
    wordChar c || c == '.' ||
      (c == '+' || c == '-') && piece.getLast?.any fun e => ['e', 'E', 'p', 'P'].contains e
  else if piece.head?.any nondigit then wordChar c
  else punctuators.contains (piece ++ [c]) || piece == ['.'] && c.isDigit

/-- The text is one C could take for an identifier. -/
def isWord : List Char → Bool
  | [] => false
  | c :: cs => nondigit c && cs.all wordChar

/-- A nonempty string of digits. -/
def isDigits : List Char → Bool
  | [] => false
  | c :: cs => c.isDigit && cs.all Char.isDigit

def isIdentifier (text : List Char) : Bool := isWord text && !keywords.contains text

/-- Decimal and octal constants without a suffix. -/
def isIntConstant : List Char → Bool
  | [] => false
  | '0' :: cs => cs.all fun c => '0' ≤ c && c ≤ '7'
  | c :: cs => c.isDigit && cs.all Char.isDigit

def classify (piece : List Char) : Tok :=
  if piece = ['('] then .lparen
  else if piece = [')'] then .rparen
  else if piece = [','] then .comma
  else if piece = ['.'] then .dot
  else if piece = ['='] then .assign
  else if piece = ['!'] then .bang
  else match BinaryOp.ofText piece with
    | some op => .op op
    | none =>
      if isIntConstant piece then .int piece
      else if isIdentifier piece then .name piece
      else .other piece

def tokens (text : List Char) : List Tok := (munch isSpace joins [] text).map classify

def prefixTok : PrefixOp → Tok
  | .neg => .op .sub
  | .pos => .op .add
  | .not => .bang

def prefixOf : Tok → Option PrefixOp
  | .op .sub => some .neg
  | .op .add => some .pos
  | .bang => some .not
  | _ => none

theorem prefixOf_tok (op : PrefixOp) : prefixOf (prefixTok op) = some op := by
  cases op <;> rfl

theorem eq_prefixTok {t : Tok} {op : PrefixOp} (found : prefixOf t = some op) :
    t = prefixTok op := by
  unfold prefixOf at found
  split at found <;> simp_all [prefixTok] <;> subst found <;> rfl

/-! ## Tokens of texts put together -/

/-- Parentheses, commas and blanks end every piece. -/
def closesPiece (c : Char) : Bool := c == '(' || c == ')' || c == ',' || c == ' '

variable {a t : List Char} {c : Char} {f p : List Char}

theorem joins_closing (closes : closesPiece c = true) (piece : List Char) :
    joins piece c = false := by
  have known : c = '(' ∨ c = ')' ∨ c = ',' ∨ c = ' ' := by
    simpa [closesPiece, or_assoc] using closes
  have ended : ∀ q ∈ punctuators, q.getLast? ≠ some c := by
    obtain rfl | rfl | rfl | rfl := known <;> decide
  have outside : ¬ piece ++ [c] ∈ punctuators :=
    fun inside => ended _ inside List.getLast?_concat
  have plain : wordChar c = false := by obtain rfl | rfl | rfl | rfl := known <;> decide
  unfold joins
  obtain rfl | rfl | rfl | rfl := known <;> simp [outside, plain]

theorem joins_lparen (c : Char) : joins ['('] c = false := by
  have outside : ¬ ['(', c] ∈ punctuators := by simp [punctuators]
  simp [joins, isNumber, nondigit, outside]

theorem apart_closing (closes : closesPiece c = true) (piece rest : List Char) :
    Apart isSpace joins piece (c :: rest) := by
  intro d here
  obtain rfl : c = d := by simpa using here
  exact .inr (joins_closing closes piece)

theorem tokens_split {b : List Char} (apart : Apart isSpace joins (pending isSpace joins [] a) b) :
    tokens (a ++ b) = tokens a ++ tokens b := by
  rw [tokens, munch_split apart, map_append]
  rfl

theorem tokens_closing (closes : closesPiece c = true) (a rest : List Char) :
    tokens (a ++ c :: rest) = tokens a ++ tokens (c :: rest) :=
  tokens_split (apart_closing closes _ _)

theorem tokens_blank (rest : List Char) : tokens (' ' :: rest) = tokens rest := rfl

theorem tokens_lparen (rest : List Char) : tokens ('(' :: rest) = .lparen :: tokens rest :=
  tokens_split (a := ['(']) fun c _ => .inr (joins_lparen c)

theorem tokens_group (a : List Char) :
    tokens ('(' :: a ++ [')']) = .lparen :: tokens a ++ [.rparen] := by
  rw [tokens_closing rfl, tokens_lparen]
  rfl

theorem tokens_comma (a b : List Char) :
    tokens (a ++ ',' :: ' ' :: b) = tokens a ++ .comma :: tokens b := by
  rw [tokens_closing rfl]
  exact congrArg (tokens a ++ ·) (tokens_closing rfl [','] b)

theorem tokens_binary (op : BinaryOp) (a b : List Char) :
    tokens (a ++ ' ' :: op.text ++ ' ' :: b) = tokens a ++ .op op :: tokens b := by
  have alone : tokens op.text = [.op op] := by cases op <;> rfl
  rw [append_assoc, cons_append, tokens_closing rfl, tokens_blank, tokens_closing rfl, alone]
  rfl

theorem tokens_assign (a b : List Char) :
    tokens (a ++ ' ' :: '=' :: ' ' :: b) = tokens a ++ .assign :: tokens b := by
  rw [tokens_closing rfl]
  exact congrArg (tokens a ++ ·) (tokens_closing (c := ' ') rfl ['='] b)

theorem not_space_of_wordChar (body : wordChar c = true) : isSpace c = false := by
  cases blank : isSpace c with
  | false => rfl
  | true =>
    simp only [isSpace, Bool.or_eq_true, beq_iff_eq] at blank
    obtain ((((rfl | rfl) | rfl) | rfl) | rfl) | rfl := blank <;> exact absurd body (by decide)

theorem isAlpha_eq (c : Char) :
    c.isAlpha = (decide ('A' ≤ c ∧ c ≤ 'Z') || (decide ('a' ≤ c) && decide (c ≤ 'z'))) :=
  rfl

theorem not_digit_of_nondigit (letter : nondigit c = true) : c.isDigit = false := by
  cases digit : c.isDigit with
  | false => rfl
  | true =>
    simp only [nondigit, isAlpha_eq, Char.isDigit, Bool.or_eq_true, Bool.and_eq_true,
      decide_eq_true_eq, beq_iff_eq] at letter digit
    obtain (capital | small) | rfl := letter
    · exact absurd (Nat.le_trans capital.1 digit.2) (by decide)
    · exact absurd (Nat.le_trans small.1 digit.2) (by decide)
    · exact absurd digit.2 (by decide)

theorem isNumber_cons (dot : c ≠ '.') (cs : List Char) : isNumber (c :: cs) = c.isDigit := by
  unfold isNumber
  split
  · simp_all
  · simp_all
  · simp_all

theorem isNumber_append (number : isNumber p = true) (q : List Char) :
    isNumber (p ++ q) = true := by
  match p with
  | [] => cases number
  | ['.'] => exact absurd number (by decide)
  | '.' :: c :: cs => exact number
  | c :: cs =>
    by_cases dot : c = '.'
    · subst dot
      cases cs with
      | nil => exact absurd number (by decide)
      | cons d ds => exact number
    · rw [isNumber_cons dot] at number
      rw [cons_append, isNumber_cons dot, number]

/-- A text that starts with a letter or a digit and goes on with such is one piece. -/
theorem munch_word {cs : List Char} (body : wordChar c = true)
    (rest : ∀ x ∈ cs, wordChar x = true) :
    munch isSpace joins [] (c :: cs) = [c :: cs] ∧
      pending isSpace joins [] (c :: cs) = c :: cs := by
  have solid := not_space_of_wordChar body
  have dot : c ≠ '.' := by rintro rfl; exact absurd body (by decide)
  rw [munch_first solid, pending_first solid]
  apply munch_run fun x inside => not_space_of_wordChar (rest x inside)
  rintro p x inside ⟨more, rfl⟩
  unfold joins
  rw [singleton_append, isNumber_cons dot, List.head?_cons]
  unfold wordChar at body
  split_ifs with number letter
  · rw [rest x inside]
    rfl
  · exact rest x inside
  · simp_all

theorem isWord_cons (word : isWord t = true) :
    ∃ c cs, t = c :: cs ∧ nondigit c = true ∧ ∀ x ∈ cs, wordChar x = true := by
  cases t with
  | nil => cases word
  | cons c cs =>
    rw [isWord, Bool.and_eq_true, all_eq_true] at word
    exact ⟨c, cs, rfl, word.1, word.2⟩

theorem isDigits_cons (digits : isDigits t = true) :
    ∃ c cs, t = c :: cs ∧ c.isDigit = true ∧ ∀ x ∈ cs, wordChar x = true := by
  cases t with
  | nil => cases digits
  | cons c cs =>
    rw [isDigits, Bool.and_eq_true, all_eq_true] at digits
    refine ⟨c, cs, rfl, digits.1, fun x inside => ?_⟩
    rw [wordChar, digits.2 x inside, Bool.or_true]

/-- Neither words nor numbers are symbols. -/
theorem classify_wordChar (body : wordChar c = true) (cs : List Char) :
    classify (c :: cs) = if isIntConstant (c :: cs) then .int (c :: cs)
      else if isIdentifier (c :: cs) then .name (c :: cs) else .other (c :: cs) := by
  have differs : ∀ d, wordChar d = false → c ≠ d := by
    rintro d outside rfl
    exact absurd body (by simp [outside])
  have none : ofText (c :: cs) = none := by
    rw [ofText, List.find?_eq_none]
    intro op _ same
    have start : ∃ d ds, op.text = d :: ds ∧ wordChar d = false := by
      cases op <;> exact ⟨_, _, rfl, by decide⟩
    obtain ⟨d, ds, text, outside⟩ := start
    rw [beq_iff_eq, text] at same
    exact differs d outside (head_eq_of_cons_eq same).symm
  simp [classify, none, differs '(' (by decide), differs ')' (by decide), differs ',' (by decide),
    differs '.' (by decide), differs '=' (by decide), differs '!' (by decide)]

theorem tokens_word (word : isWord t = true) :
    tokens t = if keywords.contains t then [.other t] else [.name t] := by
  obtain ⟨c, cs, rfl, letter, rest⟩ := isWord_cons word
  have body : wordChar c = true := by rw [wordChar, letter, Bool.true_or]
  have int : isIntConstant (c :: cs) = false := by
    have digit := not_digit_of_nondigit letter
    unfold isIntConstant
    split
    · rfl
    next same =>
      cases same
      exact absurd letter (by decide)
    · simp_all
  rw [tokens, (munch_word body rest).1, map_singleton, classify_wordChar body, int, isIdentifier,
    word]
  cases keywords.contains (c :: cs) <;> rfl

theorem tokens_digits (digits : isDigits t = true) :
    tokens t = if isIntConstant t then [.int t] else [.other t] := by
  obtain ⟨c, cs, rfl, digit, rest⟩ := isDigits_cons digits
  have body : wordChar c = true := by rw [wordChar, digit, Bool.or_true]
  have name : isIdentifier (c :: cs) = false := by
    cases letter : nondigit c with
    | false => rw [isIdentifier, isWord, letter, Bool.false_and, Bool.false_and]
    | true => exact absurd digit (by simp [not_digit_of_nondigit letter])
  rw [tokens, (munch_word body rest).1, map_singleton, classify_wordChar body, name]
  cases isIntConstant (c :: cs) <;> rfl

theorem joins_dot (piece : List Char) : joins piece '.' = isNumber piece := by
  have outside : ¬ piece ++ ['.'] ∈ punctuators := by
    intro inside
    have ended : ∀ q ∈ punctuators, q.getLast? ≠ some '.' := by decide
    exact ended _ inside List.getLast?_concat
  have plain : wordChar '.' = false := by decide
  unfold joins
  cases isNumber piece <;> simp [outside, plain]

/-- A member access behind a piece that is no number. -/
theorem tokens_member (word : isWord f = true)
    (apart : isNumber (pending isSpace joins [] a) = false) :
    tokens (a ++ '.' :: f) = tokens a ++ .dot :: tokens f ∧
      pending isSpace joins [] (a ++ '.' :: f) = f := by
  obtain ⟨c, cs, rfl, letter, rest⟩ := isWord_cons word
  have body : wordChar c = true := by rw [wordChar, letter, Bool.true_or]
  have dotted : joins ['.'] c = false := by
    have outside : ¬ ['.', c] ∈ punctuators := by simp [punctuators]
    simp [joins, isNumber, nondigit, outside, not_digit_of_nondigit letter]
  have first : Apart isSpace joins (pending isSpace joins [] a) ('.' :: c :: cs) := by
    intro d here
    obtain rfl : '.' = d := by simpa using here
    exact .inr (by rw [joins_dot, apart])
  have second : Apart isSpace joins ['.'] (c :: cs) := by
    intro d here
    obtain rfl : c = d := by simpa using here
    exact .inr dotted
  constructor
  · rw [tokens_split first]
    exact congrArg (tokens a ++ ·) (tokens_split (a := ['.']) second)
  · have solid := not_space_of_wordChar body
    have parted : joins (pending isSpace joins [] a) '.' = false := by rw [joins_dot, apart]
    have run := (munch_word body rest).2
    rw [pending_first solid] at run
    rw [pending_append, pending, if_neg (by decide), if_neg (by simp [parted]), pending,
      if_neg (by simp [solid]), if_neg (by simp [dotted]), run]

theorem classify_dotted (some : p ≠ []) (q : List Char) :
    classify (p ++ '.' :: q) = .other (p ++ '.' :: q) := by
  have dotted : '.' ∈ p ++ '.' :: q := by simp
  have short : ∀ c, p ++ '.' :: q ≠ [c] := by
    intro c same
    have := congrArg List.length same
    have := length_pos_of_ne_nil some
    simp only [length_append, length_cons, length_nil] at *
    omega
  generalize p ++ '.' :: q = t at dotted short
  have symbol : ofText t = none := by
    rw [ofText, List.find?_eq_none]
    intro op _ same
    have plain : '.' ∉ op.text := by cases op <;> decide
    rw [beq_iff_eq] at same
    exact plain (same ▸ dotted)
  have int : isIntConstant t = false := by
    unfold isIntConstant
    split
    · rfl
    · rw [all_eq_false]
      exact ⟨'.', by simpa using dotted, by decide⟩
    · obtain rfl | later := mem_cons.mp dotted
      · rfl
      · rw [Bool.and_eq_false_iff, all_eq_false]
        exact .inr ⟨'.', later, by decide⟩
  have name : isIdentifier t = false := by
    have word : isWord t = false := by
      unfold isWord
      split
      · rfl
      · obtain rfl | later := mem_cons.mp dotted
        · rfl
        · rw [Bool.and_eq_false_iff, all_eq_false]
          exact .inr ⟨'.', later, by decide⟩
    rw [isIdentifier, word, Bool.false_and]
  simp [classify, short, symbol, int, name]

/-- A member access behind a number is swallowed by it. -/
theorem tokens_number_member (word : isWord f = true)
    (number : isNumber (pending isSpace joins [] a) = true) :
    ∃ t, .other t ∈ tokens (a ++ '.' :: f) := by
  obtain ⟨c, cs, rfl, letter, rest⟩ := isWord_cons word
  have body : ∀ x ∈ c :: cs, wordChar x = true := by
    intro x inside
    obtain rfl | inside := mem_cons.mp inside
    · rw [wordChar, letter, Bool.true_or]
    · exact rest x inside
  generalize piece : pending isSpace joins [] a = p at number
  have swallowed : munch isSpace joins p ('.' :: c :: cs) = [p ++ '.' :: c :: cs] := by
    have dot : joins p '.' = true := by rw [joins_dot, number]
    have grows : ∀ q x, x ∈ c :: cs → p ++ ['.'] <+: q → joins q x = true := by
      rintro q x inside ⟨more, rfl⟩
      rw [joins, append_assoc, if_pos (isNumber_append number _), body x inside]
      rfl
    rw [munch, if_neg (by decide), if_pos dot,
      (munch_run (fun x inside => not_space_of_wordChar (body x inside)) grows).1]
    cases p <;> simp [close]
  have found : p ++ '.' :: c :: cs ∈ munch isSpace joins [] (a ++ '.' :: c :: cs) := by
    apply mem_munch_append
    rw [piece, swallowed]
    exact mem_singleton.mpr rfl
  have some : p ≠ [] := by
    rintro rfl
    cases number
  exact ⟨_, mem_map.mpr ⟨_, found, classify_dotted some _⟩⟩

/-- Two signs with nothing between are one token. -/
theorem tokens_double (sign : c = '-' ∨ c = '+') (rest : List Char) :
    .other [c, c] ∈ tokens (c :: c :: rest) := by
  have full : ∀ x, joins [c, c] x = false := by
    obtain rfl | rfl := sign <;> simp [joins, isNumber, nondigit, punctuators]
  have joined : munch isSpace joins [] (c :: c :: rest) = munch isSpace joins [c, c] rest := by
    obtain rfl | rfl := sign <;> rfl
  rw [tokens, joined]
  refine mem_map.mpr ⟨[c, c], mem_munch_of_full (by simp) full, ?_⟩
  obtain rfl | rfl := sign <;> rfl

end C

end Argentum.Sterling
