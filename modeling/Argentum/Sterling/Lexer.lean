/-
# Sterling.Lexer — the tokens of a Sterling source file

`st_lexer_next` reads one token at a time; `lexAll` is what a parser that asks for one after the
other sees, down to the end of file. Columns are left out, they appear in messages only. The
parser builds names and literals from token texts; `lexAll_formed` says what those texts can be,
`lexAll_spells` where they stand in the source.
-/
import Mathlib.Data.List.TakeWhile
import Argentum.Sterling.CTokens

namespace Argentum.Sterling

/-- `st_token_kind`. -/
inductive TokenKind where
  | eof | error | ident | keyword | int | float | string | operator | subscript | punct
  deriving DecidableEq

/-- `st_token`. An error's text is its message. -/
structure Token where
  kind : TokenKind
  text : List Char
  line : Nat
  deriving DecidableEq

/-- `st_keywords`. -/
def keywords : List (List Char) :=
  ["import", "class", "struct", "enum", "protocol", "extension", "category", "method", "func",
    "init", "property", "readonly", "weak", "unowned", "required", "optional", "public", "private",
    "internal", "let", "var", "if", "else", "guard", "for", "while", "switch", "case", "default",
    "where", "defer", "with", "operator", "return", "throws", "self", "super", "nil", "true",
    "false", "strong", "assign", "copy", "break", "continue", "in", "as"].map String.toList

def isKeyword (word : List Char) : Bool := keywords.contains word

/-- `st_operator_precedence`: 0 where the symbol is no binary operator. -/
def operatorPrecedence : List Char → Nat
  | [] => 0
  | ['='] | ['?'] | [':'] | ['.'] | ['!'] => 0
  | ['=', '='] | ['!', '='] => 6
  | ['<', '='] | ['>', '='] => 7
  | ['<', '<'] | ['>', '>'] => 8
  | ['&', '&'] => 2
  | ['|', '|'] | ['?', '?'] => 1
  | c :: _ =>
    match c with
    | '*' | '/' | '%' => 10
    | '+' | '-' => 9
    | '<' | '>' => 7
    | '&' => 5
    | '^' => 4
    | '|' => 3
    | _ => 1

/-- Sterling's table is C's. -/
theorem operatorPrecedence_text (op : BinaryOp) : operatorPrecedence op.text = op.level := by
  cases op <;> rfl

/-! ## Characters -/

def isBlank (c : Char) : Bool := c == ' ' || c == '\t' || c == '\r' || c == '\n'

def isDigit (c : Char) : Bool := '0' ≤ c && c ≤ '9'

def isIdentStart (c : Char) : Bool := 'a' ≤ c && c ≤ 'z' || 'A' ≤ c && c ≤ 'Z' || c == '_'

def isIdentBody (c : Char) : Bool := isIdentStart c || isDigit c

def isOperatorChar (c : Char) : Bool :=
  ['+', '-', '*', '/', '%', '<', '>', '=', '!', '&', '|', '^', '~', '?'].contains c

/-! ## The lexer -/

/-- `st_lexer`: what has been read, last character first, and what has not. -/
structure Lexer where
  before : List Char
  rest : List Char
  line : Nat

namespace Lexer

/-- The character so far ahead, `'\0'` behind the end. -/
def peek (lx : Lexer) (ahead : Nat) : Char := lx.rest.getD ahead '\x00'

def advance (lx : Lexer) : Lexer :=
  match lx.rest with
  | [] => lx
  | c :: rest =>
    { before := c :: lx.before, rest, line := if c = '\n' then lx.line + 1 else lx.line }

def advanceBy : Nat → Lexer → Lexer
  | 0, lx => lx
  | n + 1, lx => advanceBy n lx.advance

/-- The token of the next `len` characters. -/
def make (lx : Lexer) (kind : TokenKind) (len : Nat) : Token × Lexer :=
  (⟨kind, lx.rest.take len, lx.line⟩, advanceBy len lx)

/-- An error found after `len` characters. -/
def makeError (lx : Lexer) (message : String) (len : Nat) : Token × Lexer :=
  (⟨.error, message.toList, lx.line⟩, advanceBy len lx)

end Lexer

/-- Where `skip_trivia` stands: between tokens or in a comment. -/
inductive Trivia where
  | plain | lineComment | blockComment

/-- `skip_trivia`: how many characters it passes over, `none` if a block comment is not closed. -/
def skipTrivia : Trivia → List Char → Option Nat
  | .plain, [] => some 0
  | .plain, '/' :: '/' :: cs => (skipTrivia .lineComment cs).map (· + 2)
  | .plain, '/' :: '*' :: cs => (skipTrivia .blockComment cs).map (· + 2)
  | .plain, c :: cs => if isBlank c then (skipTrivia .plain cs).map (· + 1) else some 0
  | .lineComment, [] => some 0
  -- the end of the line is a blank of the plain text
  | .lineComment, '\n' :: cs => (skipTrivia .plain cs).map (· + 1)
  | .lineComment, _ :: cs => (skipTrivia .lineComment cs).map (· + 1)
  | .blockComment, [] => none
  | .blockComment, '*' :: '/' :: cs => (skipTrivia .plain cs).map (· + 2)
  | .blockComment, _ :: cs => (skipTrivia .blockComment cs).map (· + 1)

def lexIdent (lx : Lexer) : Token × Lexer :=
  let len := (lx.rest.takeWhile isIdentBody).length
  if isKeyword (lx.rest.take len) then lx.make .keyword len else lx.make .ident len

/-- Digits from a position on. -/
def digitsAt (lx : Lexer) (start : Nat) : Nat := ((lx.rest.drop start).takeWhile isDigit).length

def lexNumber (lx : Lexer) : Token × Lexer :=
  let whole := digitsAt lx 0
  let fractional := lx.peek whole == '.' && isDigit (lx.peek (whole + 1))
  let len := if fractional then whole + 1 + digitsAt lx (whole + 1) else whole
  let signed := if lx.peek (len + 1) == '+' || lx.peek (len + 1) == '-' then len + 2 else len + 1
  if (lx.peek len == 'e' || lx.peek len == 'E') && isDigit (lx.peek signed) then
    lx.make .float (signed + digitsAt lx signed)
  else lx.make (if fractional then .float else .int) len

/-- The scan of a literal behind its opening quote: whether it is closed, and where it ends. -/
def scanQuoted (quote : Char) : List Char → Bool × Nat
  | [] => (false, 0)
  | '\\' :: c :: cs =>
    if c = '\n' then (false, 1)
    else (scanQuoted quote cs).map id (· + 2)
  | c :: cs =>
    if c = quote then (true, 1)
    else if c = '\n' then (false, 0)
    else (scanQuoted quote cs).map id (· + 1)

def lexQuoted (lx : Lexer) (quote : Char) (message : String) : Token × Lexer :=
  let (closed, len) := scanQuoted quote (lx.rest.drop 1)
  if closed then lx.make .string (len + 1) else lx.makeError message (len + 1)

def twoCharOperators : List (List Char) :=
  ["->", "<<", ">>", "<=", ">=", "==", "!=", "&&", "||", "??"].map String.toList

def lexOperator (lx : Lexer) : Token × Lexer :=
  if lx.peek 0 == '.' && lx.peek 1 == '.' && (lx.peek 2 == '.' || lx.peek 2 == '<') then
    lx.make .operator 3
  else if twoCharOperators.contains [lx.peek 0, lx.peek 1] then lx.make .operator 2
  else lx.make .operator 1

/-- `after_operator_keyword`. -/
def afterOperatorKeyword (lx : Lexer) : Bool :=
  let before := lx.before.dropWhile isBlank
  (before.take 8).reverse == "operator".toList && !(before.drop 8).head?.any isIdentBody

/-- `st_lexer_next` behind the trivia, at a character. -/
def lexToken (lx : Lexer) : Token × Lexer :=
  let c := lx.peek 0
  if isIdentStart c then lexIdent lx
  else if isDigit c then lexNumber lx
  else if c = '"' then lexQuoted lx '"' "unterminated string"
  else if c = '\'' then lexQuoted lx '\'' "unterminated character literal"
  else if c = '[' ∧ lx.peek 1 = ']' ∧ afterOperatorKeyword lx then lx.make .subscript 2
  else if c = '.' ∧ lx.peek 1 = '.' then lexOperator lx
  else if isOperatorChar c then lexOperator lx
  else if ['.', ':', '(', ')', '{', '}', '[', ']', ',', ';', '@'].contains c then lx.make .punct 1
  else lx.makeError "unexpected character" 1

/-- The tokens from a position to the end of file. Each takes a character at least, so the fuel
is the length of the source. -/
def lexFrom : Nat → Lexer → List Token
  | 0, lx => [⟨.eof, [], lx.line⟩]
  | n + 1, lx =>
    match skipTrivia .plain lx.rest with
    | none =>
      let lx := lx.advanceBy lx.rest.length
      [⟨.error, "unterminated block comment".toList, lx.line⟩]
    | some len =>
      let lx := lx.advanceBy len
      match lx.rest with
      | [] => [⟨.eof, [], lx.line⟩]
      | _ :: _ =>
        let (token, lx) := lexToken lx
        token :: lexFrom n lx

def lexAll (src : List Char) : List Token := lexFrom (src.length + 1) ⟨[], src, 1⟩

/-! ## The texts of names and literals -/

theorem isDigit_eq (c : Char) : isDigit c = c.isDigit := rfl

theorem isIdentStart_eq (c : Char) : isIdentStart c = C.nondigit c := by
  unfold isIdentStart C.nondigit
  rw [C.isAlpha_eq, Bool.or_comm (decide ('A' ≤ c ∧ _)), Bool.decide_and]

theorem isIdentBody_eq (c : Char) : isIdentBody c = C.wordChar c := by
  rw [isIdentBody, isIdentStart_eq, isDigit_eq, C.wordChar]

/-- A name's text is a word, an integer's a string of digits. -/
def Token.Formed (t : Token) : Prop :=
  match t.kind with
  | .ident | .keyword => C.isWord t.text = true
  | .int => C.isDigits t.text = true
  | _ => True

theorem take_length_takeWhile {α : Type} (p : α → Bool) (l : List α) :
    l.take (l.takeWhile p).length = l.takeWhile p :=
  (List.prefix_iff_eq_take.mp (List.takeWhile_prefix p)).symm

variable {lx : Lexer} {c : Char} {cs : List Char}

theorem lexIdent_formed (here : lx.rest = c :: cs) (start : isIdentStart c = true) :
    (lexIdent lx).1.Formed := by
  have word : C.isWord (lx.rest.take (lx.rest.takeWhile isIdentBody).length) = true := by
    have body : isIdentBody c = true := by rw [isIdentBody, start, Bool.true_or]
    rw [take_length_takeWhile, here, List.takeWhile_cons, if_pos body, C.isWord,
      ← isIdentStart_eq, start, Bool.true_and, List.all_eq_true]
    intro d inside
    rw [← isIdentBody_eq]
    exact List.mem_takeWhile_imp inside
  unfold lexIdent
  dsimp only
  split_ifs <;> exact word

theorem lexNumber_formed (here : lx.rest = c :: cs) (start : isDigit c = true) :
    (lexNumber lx).1.Formed := by
  have digits : C.isDigits (lx.rest.take (digitsAt lx 0)) = true := by
    rw [digitsAt, List.drop_zero, take_length_takeWhile, here, List.takeWhile_cons, if_pos start,
      C.isDigits, ← isDigit_eq, start, Bool.true_and, List.all_eq_true]
    intro d inside
    exact List.mem_takeWhile_imp inside
  unfold lexNumber
  dsimp only
  split_ifs <;> trivial

theorem lexOperator_formed : (lexOperator lx).1.Formed := by
  unfold lexOperator
  split_ifs <;> trivial

theorem lexQuoted_formed (quote : Char) (message : String) :
    (lexQuoted lx quote message).1.Formed := by
  unfold lexQuoted
  dsimp only
  split_ifs <;> trivial

open Lexer

theorem lexToken_formed (here : lx.rest = c :: cs) : (lexToken lx).1.Formed := by
  have first : lx.peek 0 = c := by rw [peek, here]; rfl
  unfold lexToken
  dsimp only
  rw [first]
  split_ifs with word digit
  · exact lexIdent_formed here word
  · exact lexNumber_formed here digit
  · exact lexQuoted_formed _ _
  · exact lexQuoted_formed _ _
  · trivial
  · exact lexOperator_formed
  · exact lexOperator_formed
  · trivial
  · trivial

theorem lexFrom_formed (n : Nat) (lx : Lexer) : ∀ t ∈ lexFrom n lx, t.Formed := by
  induction n generalizing lx with
  | zero => simp [lexFrom, Token.Formed]
  | succ n ih =>
    intro t inside
    unfold lexFrom at inside
    split at inside
    · obtain rfl := List.mem_singleton.mp inside
      trivial
    dsimp only at inside
    split at inside
    · obtain rfl := List.mem_singleton.mp inside
      trivial
    next here =>
      obtain rfl | later := List.mem_cons.mp inside
      · exact lexToken_formed here
      · exact ih _ t later

theorem lexAll_formed {src : List Char} : ∀ t ∈ lexAll src, t.Formed := lexFrom_formed _ _

/-! ## The tokens spell the source -/

/-- The message for a piece that is no token, by its first character. -/
def complaint (piece : List Char) : List Char :=
  if piece.head? = some '"' then "unterminated string".toList
  else if piece.head? = some '\'' then "unterminated character literal".toList
  else "unexpected character".toList

/-- From this line on the tokens are the pieces of the text, in order, with what `skip_trivia`
passes over between them. The text of an error is its message. -/
inductive Spells : Nat → List Token → List Char → Prop
  | eof {line len gap} (passed : skipTrivia .plain gap = some len) (all : gap.length ≤ len) :
      Spells line [⟨.eof, [], line + gap.count '\n'⟩] gap
  | unclosed {line src} (stuck : skipTrivia .plain src = none) :
      Spells line [⟨.error, "unterminated block comment".toList, line + src.count '\n'⟩] src
  | token {line t ts gap piece src} (lines : t.line = line + gap.count '\n')
      (passed : skipTrivia .plain (gap ++ (piece ++ src)) = some gap.length) (some : piece ≠ [])
      (text : t.text = if t.kind = .error then complaint piece else piece)
      (rest : Spells (t.line + piece.count '\n') ts src) :
      Spells line (t :: ts) (gap ++ (piece ++ src))

theorem advanceBy_eq (n : Nat) (lx : Lexer) : (lx.advanceBy n).rest = lx.rest.drop n ∧
    (lx.advanceBy n).line = lx.line + (lx.rest.take n).count '\n' := by
  induction n generalizing lx with
  | zero => simp [advanceBy]
  | succ n ih =>
    obtain ⟨rest, line⟩ := ih lx.advance
    rw [advanceBy, rest, line, advance]
    split
    next empty => simp [empty]
    next here =>
      rw [here, List.drop_succ_cons, List.take_succ_cons, List.count_cons]
      refine ⟨rfl, ?_⟩
      simp only [beq_iff_eq]
      split_ifs <;> omega

/-- A token is cut off the front of what is left. -/
def Cut (lx : Lexer) (r : Token × Lexer) : Prop :=
  ∃ n, 1 ≤ n ∧ r.2 = lx.advanceBy n ∧ r.1.line = lx.line ∧
    r.1.text = if r.1.kind = .error then complaint (lx.rest.take n) else lx.rest.take n

theorem make_cut {n : Nat} {kind : TokenKind} (whole : kind ≠ .error) (some : 1 ≤ n) :
    Cut lx (lx.make kind n) :=
  ⟨n, some, rfl, rfl, (if_neg whole).symm⟩

theorem makeError_cut {message : String} (here : lx.rest = c :: cs)
    (said : ∀ cs, complaint (c :: cs) = message.toList) (n : Nat) :
    Cut lx (lx.makeError message (n + 1)) := by
  refine ⟨n + 1, Nat.le_add_left 1 n, rfl, rfl, ?_⟩
  rw [makeError, if_pos rfl, here, List.take_succ_cons, said]

theorem lexQuoted_cut {message : String} (here : lx.rest = c :: cs)
    (said : ∀ cs, complaint (c :: cs) = message.toList) : Cut lx (lexQuoted lx c message) := by
  unfold lexQuoted
  dsimp only
  split_ifs
  · exact make_cut (by simp) (by omega)
  · exact makeError_cut here said _

theorem lexOperator_cut : Cut lx (lexOperator lx) := by
  unfold lexOperator
  split_ifs <;> exact make_cut (by simp) (by omega)

theorem lexToken_cut (here : lx.rest = c :: cs) : Cut lx (lexToken lx) := by
  have first : lx.peek 0 = c := by rw [peek, here]; rfl
  unfold lexToken
  dsimp only
  rw [first]
  split_ifs with word digit string char
  · have body : isIdentBody c = true := by rw [isIdentBody, word, Bool.true_or]
    have some : 1 ≤ (lx.rest.takeWhile isIdentBody).length := by
      rw [here, List.takeWhile_cons, if_pos body, List.length_cons]
      omega
    unfold lexIdent
    dsimp only
    split_ifs <;> exact make_cut (by simp) some
  · have some : 1 ≤ digitsAt lx 0 := by
      rw [digitsAt, List.drop_zero, here, List.takeWhile_cons, if_pos digit, List.length_cons]
      omega
    unfold lexNumber
    dsimp only
    split_ifs <;> exact make_cut (by simp) (by omega)
  · subst string
    exact lexQuoted_cut here fun _ => rfl
  · subst char
    exact lexQuoted_cut here fun _ => rfl
  · exact make_cut (by simp) (by omega)
  · exact lexOperator_cut
  · exact lexOperator_cut
  · exact make_cut (by simp) le_rfl
  · exact makeError_cut here (fun _ => by simp [complaint, string, char]) 0

theorem lexFrom_spells {n : Nat} (enough : lx.rest.length < n) :
    Spells lx.line (lexFrom n lx) lx.rest := by
  induction n generalizing lx with
  | zero => omega
  | succ n ih =>
    rw [lexFrom]
    split
    next unclosed =>
      dsimp only
      rw [(advanceBy_eq _ lx).2, List.take_length]
      exact .unclosed unclosed
    next len passed =>
      obtain ⟨rest, line⟩ := advanceBy_eq len lx
      dsimp only
      split
      next done =>
        have all := List.drop_eq_nil_iff.mp (rest.symm.trans done)
        rw [line, List.take_of_length_le all]
        exact .eof passed all
      next here =>
        obtain ⟨m, some, left, first, text⟩ := lexToken_cut here
        obtain ⟨rest', line'⟩ := advanceBy_eq m (lx.advanceBy len)
        have inside : len < lx.rest.length := by
          rw [← List.drop_eq_nil_iff.not.trans Nat.not_le, ← rest, here]
          exact List.cons_ne_nil _ _
        have shorter : (lexToken (lx.advanceBy len)).2.rest.length < n := by
          rw [left, rest', rest, List.length_drop, List.length_drop]
          omega
        have later := ih shorter
        rw [left, rest', line', rest, ← first] at later
        have cut := List.take_append_drop len lx.rest
        rw [← List.take_append_drop m (lx.rest.drop len)] at cut
        rw [left, ← cut]
        refine .token (first.trans line) ?_ ?_ (rest ▸ text) later
        · rw [cut, List.length_take, Nat.min_eq_left (Nat.le_of_lt inside)]
          exact passed
        · exact List.ne_nil_of_length_pos (by rw [List.length_take, List.length_drop]; omega)

/-- **The tokens of a source file spell it**: whatever the text, the lexer comes to its end, and
every token stands where it says. -/
theorem lexAll_spells (src : List Char) : Spells 1 (lexAll src) src :=
  @lexFrom_spells ⟨[], src, 1⟩ _ (Nat.lt_succ_self _)

end Argentum.Sterling
