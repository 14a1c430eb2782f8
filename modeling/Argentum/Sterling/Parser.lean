/-
# Sterling.Parser — expressions of a Sterling source file

`parse_primary`, `parse_postfix`, `parse_args`, `parse_binary` and the expression statement of
`parse_stmt`, for the trees that C has too: names, integers, members, calls, `-` `+` `!`, C's
binary operators and assignment. `none` is a message to the user, or a node of another kind
(strings, message sends, closures, `x!`, `as`, subscripts, operators C does not have). Labels of
arguments are read and dropped: a call is emitted without them.

The trees keep the texts of the tokens, so their names are words and their integers are digits
(`ParsedFrom.formed`).
-/
import Argentum.Sterling.Lexer

namespace Argentum.Sterling

open Option (bind_eq_bind bind_eq_some_iff)

/-- `st_parser`: the tokens from the current one on, and the line of the one before. -/
structure Parser where
  toks : List Token
  prevLine : Nat

namespace Parser

variable (p : Parser) (c : Char)

/-- The current token; behind the last one it stays at the end of file. -/
def tok : Token := p.toks.head?.getD ⟨.eof, [], 0⟩

def bump : Parser := { toks := p.toks.tail, prevLine := p.tok.line }

def atPunct : Bool := p.tok.kind = .punct && p.tok.text == [c]

def atOperator : Bool := p.tok.kind = .operator && p.tok.text == [c]

def atKeyword (word : String) : Bool :=
  p.tok.kind = .keyword && p.tok.text == word.toList

def expectPunct : Option Parser := if p.atPunct c then some p.bump else none

/-- `take_name`: keywords are names too. -/
def takeName : Option (List Char × Parser) :=
  if p.tok.kind = .ident ∨ p.tok.kind = .keyword then some (p.tok.text, p.bump) else none

/-- The capture list behind a call, passed over up to its closing bracket. -/
def skipCaptures : Nat → List Token → Nat → Parser
  | _, [], line => ⟨[], line⟩
  | depth, t :: ts, line =>
    if depth = 0 ∨ t.kind = .eof then ⟨t :: ts, line⟩
    else if t.kind = .punct ∧ t.text = ['['] then skipCaptures (depth + 1) ts t.line
    else if t.kind = .punct ∧ t.text = [']'] then skipCaptures (depth - 1) ts t.line
    else skipCaptures depth ts t.line

/-- The label of an argument, `label:`; a name without a colon is the argument itself. -/
def skipLabel : Parser :=
  match p.takeName with
  | some (_, q) => if q.atPunct ':' then q.bump else p
  | none => p

/-- The prefix test of `parse_primary` on an operator token. -/
def isPrefixSymbol (text : List Char) : Bool :=
  match text.head? with
  | some '-' | some '+' | some '!' => true
  | some '?' | some ':' | some '.' | some '=' | none => false
  | _ => true

end Parser

def isMember : Expr → Bool
  | .member _ _ => true
  | _ => false

/-- `binary_precedence`. -/
def binaryPrecedence (t : Token) : Nat :=
  if t.kind = .operator then operatorPrecedence t.text else 0

mutual

def parsePrimary : Nat → Parser → Option (Expr × Parser)
  | 0, _ => none
  | n + 1, p =>
    if p.tok.kind = .operator && Parser.isPrefixSymbol p.tok.text then do
      let op ← PrefixOp.ofText p.tok.text
      let (operand, q) ← parsePrimary n p.bump
      some (.unary op operand, q)
    else match p.tok.kind with
      | .int => parsePostfix n (.int p.tok.text) p.bump
      | .ident => parsePostfix n (.name p.tok.text) p.bump
      | .punct =>
        -- a grouping has no node of its own; `({` opens a brace initialiser
        if p.atPunct '(' && !p.bump.atPunct '{' then do
          let (e, q) ← parseBinary n 1 p.bump
          let q ← q.expectPunct ')'
          parsePostfix n e q
        else none
      | _ => none

/-- The loop over `parse_postfix`. -/
def parsePostfix : Nat → Expr → Parser → Option (Expr × Parser)
  | 0, _, _ => none
  | n + 1, e, p =>
    if p.atPunct '.' then do
      let (field, q) ← p.bump.takeName
      parsePostfix n (.member e field) q
    else if p.atOperator '!' || p.atKeyword "as" || p.atPunct '[' then none
    else if p.atPunct '(' then
      -- a call of a member is a message send
      if isMember e then none
      else do
        let (args, q) ← parseArgs n p.bump
        let q := if q.atPunct '[' then Parser.skipCaptures 1 q.bump.toks q.bump.prevLine else q
        -- a trailing closure
        if q.atPunct '{' then none else parsePostfix n (.call e args) q
    else some (e, p)

def parseArgs : Nat → Parser → Option (List Expr × Parser)
  | 0, _ => none
  | n + 1, p =>
    if p.atPunct ')' then some ([], p.bump)
    else do
      let (e, q) ← parseBinary n 1 p.skipLabel
      if q.atPunct ',' then do
        let (args, q) ← parseArgs n q.bump
        some (e :: args, q)
      else do
        let q ← q.expectPunct ')'
        some ([e], q)

def parseBinary : Nat → Nat → Parser → Option (Expr × Parser)
  | 0, _, _ => none
  | n + 1, minPrecedence, p => do
      let (left, q) ← parsePrimary n p
      parseOperators n minPrecedence left q

/-- The loop of `parse_binary`. -/
def parseOperators : Nat → Nat → Expr → Parser → Option (Expr × Parser)
  | 0, _, _, _ => none
  | n + 1, minPrecedence, left, p =>
    let precedence := binaryPrecedence p.tok
    if precedence = 0 ∨ precedence < minPrecedence then some (left, p)
    -- an expression ends at its line, before the operator or behind it
    else if p.tok.line ≠ p.prevLine then some (left, p)
    else if p.bump.tok.line ≠ p.tok.line then some (left, p.bump)
    else do
      let (right, q) ← parseBinary n (precedence + 1) p.bump
      let op ← BinaryOp.ofText p.tok.text
      parseOperators n minPrecedence (.binary left op right) q

end

/-- `parse_expr`. -/
def parseExpr (n : Nat) (p : Parser) : Option (Expr × Parser) := parseBinary n 1 p

/-- The expression statement of `parse_stmt`. -/
def exprStatement (n : Nat) (p : Parser) : Option (Expr × Parser) := do
  let (e, q) ← parseExpr n p
  if q.atOperator '=' then do
    let (value, q) ← parseExpr n q.bump
    some (.assign e value, q)
  else some (e, q)

/-! ## The texts in the trees -/

def isAssign : Expr → Bool
  | .assign _ _ => true
  | _ => false

mutual

/-- Names are words, integers are digits, and nothing is assigned to an assignment. -/
def Expr.Formed : Expr → Prop
  | .int t => C.isDigits t = true
  | .name t => C.isWord t = true
  | .member base field => base.Formed ∧ C.isWord field = true
  | .call base args => base.Formed ∧ ArgsFormed args
  | .unary _ operand => operand.Formed
  | .binary left _ right => left.Formed ∧ right.Formed
  | .assign target value => target.Formed ∧ value.Formed ∧ isAssign target = false

def ArgsFormed : List Expr → Prop
  | [] => True
  | a :: as => a.Formed ∧ ArgsFormed as

end

theorem argsFormed_iff {args : List Expr} : ArgsFormed args ↔ ∀ a ∈ args, a.Formed := by
  induction args with
  | nil => simp [ArgsFormed]
  | cons a args ih => simp [ArgsFormed, ih]

namespace Parser

/-- The tokens are ones the lexer makes. -/
def Formed (p : Parser) : Prop := ∀ t ∈ p.toks, t.Formed

variable {p q : Parser}

theorem Formed.bump (formed : p.Formed) : p.bump.Formed :=
  fun t inside => formed t (List.mem_of_mem_tail inside)

theorem Formed.tok (formed : p.Formed) : p.tok.Formed := by
  unfold Parser.tok
  cases head : p.toks.head? with
  | none => trivial
  | some t => exact formed t (List.mem_of_head? head)

theorem Formed.expectPunct {c : Char} (formed : p.Formed) (expected : p.expectPunct c = some q) :
    q.Formed := by
  unfold Parser.expectPunct at expected
  split_ifs at expected
  cases expected
  exact formed.bump

theorem Formed.takeName {text : List Char} (formed : p.Formed)
    (taken : p.takeName = some (text, q)) : C.isWord text = true ∧ q.Formed := by
  unfold Parser.takeName at taken
  split_ifs at taken with named
  cases taken
  have word := formed.tok
  unfold Token.Formed at word
  obtain kind | kind := named <;> rw [kind] at word <;> exact ⟨word, formed.bump⟩

theorem Formed.skipLabel (formed : p.Formed) : p.skipLabel.Formed := by
  unfold Parser.skipLabel
  split
  next taken =>
    split_ifs
    · exact (formed.takeName taken).2.bump
    · exact formed
  · exact formed

theorem skipCaptures_formed {depth line : Nat} {ts : List Token} (formed : ∀ t ∈ ts, t.Formed) :
    (skipCaptures depth ts line).Formed := by
  induction ts generalizing depth line with
  | nil => simp [skipCaptures, Parser.Formed]
  | cons t ts ih =>
    have later : ∀ t ∈ ts, t.Formed := List.forall_mem_of_forall_mem_cons formed
    unfold skipCaptures
    split_ifs
    · exact formed
    · exact ih later
    · exact ih later
    · exact ih later

end Parser

/-- What the parsing functions return, with fuel `n`. -/
structure ParsesFormed (n : Nat) : Prop where
  primary : ∀ {p e q}, parsePrimary n p = some (e, q) → p.Formed →
    e.Formed ∧ isAssign e = false ∧ q.Formed
  chain : ∀ {base p e q}, parsePostfix n base p = some (e, q) → p.Formed → base.Formed →
    isAssign base = false → e.Formed ∧ isAssign e = false ∧ q.Formed
  args : ∀ {p args q}, parseArgs n p = some (args, q) → p.Formed → ArgsFormed args ∧ q.Formed
  binary : ∀ {k p e q}, parseBinary n k p = some (e, q) → p.Formed →
    e.Formed ∧ isAssign e = false ∧ q.Formed
  operators : ∀ {k left p e q}, parseOperators n k left p = some (e, q) → p.Formed →
    left.Formed → isAssign left = false → e.Formed ∧ isAssign e = false ∧ q.Formed

section Step

variable {n : Nat} (parses : ParsesFormed n)

include parses

theorem parsePrimary_formed {p e q} (parsed : parsePrimary (n + 1) p = some (e, q))
    (formed : p.Formed) : e.Formed ∧ isAssign e = false ∧ q.Formed := by
  have here := formed.tok
  simp only [parsePrimary] at parsed
  split at parsed
  · simp only [bind_eq_bind, bind_eq_some_iff] at parsed
    obtain ⟨op, _, ⟨operand, q'⟩, first, rfl, rfl⟩ := parsed
    obtain ⟨inner, _, later⟩ := parses.primary first formed.bump
    exact ⟨inner, rfl, later⟩
  · unfold Token.Formed at here
    split at parsed
    next kind =>
      rw [kind] at here
      exact parses.chain parsed formed.bump here rfl
    next kind =>
      rw [kind] at here
      exact parses.chain parsed formed.bump here rfl
    · split_ifs at parsed
      simp only [bind_eq_bind, bind_eq_some_iff] at parsed
      obtain ⟨⟨inner, q'⟩, first, q'', closed, last⟩ := parsed
      obtain ⟨grouped, plain, later⟩ := parses.binary first formed.bump
      exact parses.chain last (later.expectPunct closed) grouped plain
    · cases parsed

theorem parsePostfix_formed {base p e q} (parsed : parsePostfix (n + 1) base p = some (e, q))
    (formed : p.Formed) (grown : base.Formed) (plain : isAssign base = false) :
    e.Formed ∧ isAssign e = false ∧ q.Formed := by
  simp only [parsePostfix] at parsed
  split_ifs at parsed with dot refused call send
  · simp only [bind_eq_bind, bind_eq_some_iff] at parsed
    obtain ⟨⟨field, q'⟩, taken, last⟩ := parsed
    obtain ⟨word, later⟩ := formed.bump.takeName taken
    exact parses.chain last later ⟨grown, word⟩ rfl
  · simp only [bind_eq_bind, bind_eq_some_iff] at parsed
    obtain ⟨⟨args, q'⟩, first, last⟩ := parsed
    obtain ⟨listed, later⟩ := parses.args first formed.bump
    have skipped : (if q'.atPunct '[' then
        Parser.skipCaptures 1 q'.bump.toks q'.bump.prevLine else q').Formed := by
      split_ifs
      · exact Parser.skipCaptures_formed later.bump
      · exact later
    split_ifs at last skipped
    · exact parses.chain last skipped ⟨grown, listed⟩ rfl
    · exact parses.chain last skipped ⟨grown, listed⟩ rfl
  · cases parsed
    exact ⟨grown, plain, formed⟩

theorem parseArgs_formed {p args q} (parsed : parseArgs (n + 1) p = some (args, q))
    (formed : p.Formed) : ArgsFormed args ∧ q.Formed := by
  simp only [parseArgs] at parsed
  split_ifs at parsed
  · cases parsed
    exact ⟨trivial, formed.bump⟩
  · simp only [bind_eq_bind, bind_eq_some_iff] at parsed
    obtain ⟨⟨a, q'⟩, first, last⟩ := parsed
    obtain ⟨arg, _, later⟩ := parses.binary first formed.skipLabel
    split_ifs at last
    · simp only [bind_eq_some_iff] at last
      obtain ⟨⟨as, q''⟩, more, rfl, rfl⟩ := last
      obtain ⟨others, end'⟩ := parses.args more later.bump
      exact ⟨⟨arg, others⟩, end'⟩
    · simp only [bind_eq_some_iff] at last
      obtain ⟨q'', closed, rfl, rfl⟩ := last
      exact ⟨⟨arg, trivial⟩, later.expectPunct closed⟩

theorem parseBinary_formed {k p e q} (parsed : parseBinary (n + 1) k p = some (e, q))
    (formed : p.Formed) : e.Formed ∧ isAssign e = false ∧ q.Formed := by
  simp only [parseBinary, bind_eq_bind, bind_eq_some_iff] at parsed
  obtain ⟨⟨left, q'⟩, first, last⟩ := parsed
  obtain ⟨operand, plain, later⟩ := parses.primary first formed
  exact parses.operators last later operand plain

theorem parseOperators_formed {k left p e q}
    (parsed : parseOperators (n + 1) k left p = some (e, q)) (formed : p.Formed)
    (grown : left.Formed) (plain : isAssign left = false) :
    e.Formed ∧ isAssign e = false ∧ q.Formed := by
  simp only [parseOperators] at parsed
  split_ifs at parsed
  · cases parsed
    exact ⟨grown, plain, formed⟩
  · cases parsed
    exact ⟨grown, plain, formed⟩
  · cases parsed
    exact ⟨grown, plain, formed.bump⟩
  · simp only [bind_eq_bind, bind_eq_some_iff] at parsed
    obtain ⟨⟨right, q'⟩, first, op, _, last⟩ := parsed
    obtain ⟨operand, _, later⟩ := parses.binary first formed.bump
    exact parses.operators last later ⟨grown, operand⟩ rfl

end Step

theorem parsesFormed (n : Nat) : ParsesFormed n := by
  induction n with
  | zero =>
    constructor <;> intros
    all_goals simp_all only [parsePrimary, parsePostfix, parseArgs, parseBinary, parseOperators,
      reduceCtorEq]
  | succ n ih =>
    exact ⟨parsePrimary_formed ih, parsePostfix_formed ih, parseArgs_formed ih,
      parseBinary_formed ih, parseOperators_formed ih⟩

variable {e : Expr}

theorem exprStatement_formed {n : Nat} {p q : Parser}
    (parsed : exprStatement n p = some (e, q)) (formed : p.Formed) : e.Formed := by
  simp only [exprStatement, bind_eq_bind, bind_eq_some_iff] at parsed
  obtain ⟨⟨target, q'⟩, first, last⟩ := parsed
  obtain ⟨left, plain, later⟩ := (parsesFormed n).binary first formed
  split_ifs at last
  · simp only [bind_eq_some_iff] at last
    obtain ⟨⟨value, q''⟩, second, rfl, rfl⟩ := last
    obtain ⟨right, _, _⟩ := (parsesFormed n).binary second later.bump
    exact ⟨left, right, plain⟩
  · cases last
    exact left

/-- The parser returns the tree somewhere in the source file, as an expression or a statement. -/
def ParsedFrom (src : List Char) (e : Expr) : Prop :=
  ∃ n p q, p.toks <:+ lexAll src ∧ (parseExpr n p = some (e, q) ∨ exprStatement n p = some (e, q))

/-- **The trees of a source file have its words and digits.** -/
theorem ParsedFrom.formed {src : List Char} (parsed : ParsedFrom src e) : e.Formed := by
  obtain ⟨n, p, q, inside, parsed⟩ := parsed
  have formed : p.Formed := fun t found => lexAll_formed t (inside.subset found)
  obtain expression | statement := parsed
  · exact ((parsesFormed n).binary expression formed).1
  · exact exprStatement_formed statement formed

end Argentum.Sterling
