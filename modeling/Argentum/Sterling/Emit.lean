/-
# Sterling.Emit — expressions as C text

`emit_expr` with its helpers `emit_tight` and `emit_binary_operand`, outside struct methods, and
the tokens that C makes of the text. They are the ones meant (`toksOf`), unless a sign meets
another or a number a dot, or a word is reserved in C; then one of them is no token of an
expression (`spelled`).
-/
import Argentum.Sterling.Parser

namespace Argentum.Sterling

open Lib.MaximalMunch List C

/-! ## The emitter -/

/-- `st_enum`: its name, qualified if it is nested, and its members. -/
structure Enum where
  name : List Char
  members : List (List Char)

/-- `mangle_name` into a buffer of 256 characters. -/
def mangleName (name : List Char) : List Char :=
  (name.take 255).map fun c => if c = '.' then '_' else c

def findEnum (enums : List Enum) (name : List Char) : Option Enum :=
  enums.find? fun en => mangleName en.name == mangleName name

def Enum.hasMember (en : Enum) (member : List Char) : Bool := en.members.contains member

/-- The enumerator that a member access stands for, if it is a case of an enum. -/
def enumCase (enums : List Enum) (base : Expr) (field : List Char) : Option (List Char) :=
  match base with
  | .name t => do
      let en ← findEnum enums t
      if en.hasMember field then some (mangleName en.name ++ '_' :: field) else none
  | _ => none

/-- What `emit_tight` wraps. -/
def isLoose : Expr → Bool
  | .binary _ _ _ => true
  | .assign _ _ => true
  | _ => false

/-- What `emit_binary_operand` wraps. -/
def wrapsOperand (parent : Nat) (isRight : Bool) : Expr → Bool
  | .binary _ op _ =>
    let precedence := operatorPrecedence op.text
    precedence < parent || precedence == parent && isRight
  | .assign _ _ => true
  | _ => false

def parens (wrap : Bool) (text : List Char) : List Char :=
  if wrap then '(' :: text ++ [')'] else text

variable (enums : List Enum)

mutual

def emitExpr : Expr → List Char
  | .int t => t
  | .name t => t
  | .member base field =>
    match enumCase enums base field with
    | some text => text
    | none => parens (isLoose base) (emitExpr base) ++ '.' :: field
  | .call base args => parens (isLoose base) (emitExpr base) ++ '(' :: emitArgs args ++ [')']
  | .unary op operand => op.char :: parens (isLoose operand) (emitExpr operand)
  | .binary left op right =>
    let precedence := operatorPrecedence op.text
    parens (wrapsOperand precedence false left) (emitExpr left) ++ ' ' :: op.text ++
      ' ' :: parens (wrapsOperand precedence true right) (emitExpr right)
  | .assign target value => emitExpr target ++ ' ' :: '=' :: ' ' :: emitExpr value

/-- `emit_call_args`. -/
def emitArgs : List Expr → List Char
  | [] => []
  | a :: as => emitExpr a ++ emitMoreArgs as

def emitMoreArgs : List Expr → List Char
  | [] => []
  | a :: as => ',' :: ' ' :: emitExpr a ++ emitMoreArgs as

end

/-- `emit_tight`. -/
def emitTight (e : Expr) : List Char := parens (isLoose e) (emitExpr enums e)

/-! ## Tokens of the text -/

def group (wrap : Bool) (ts : List C.Tok) : List C.Tok :=
  if wrap then .lparen :: ts ++ [.rparen] else ts

mutual

/-- The tokens meant by the text. -/
def toksOf : Expr → List C.Tok
  | .int t => [.int t]
  | .name t => [.name t]
  | .member base field =>
    match enumCase enums base field with
    | some text => [.name text]
    | none => group (isLoose base) (toksOf base) ++ [.dot, .name field]
  | .call base args => group (isLoose base) (toksOf base) ++ .lparen :: argToks args ++ [.rparen]
  | .unary op operand => C.prefixTok op :: group (isLoose operand) (toksOf operand)
  | .binary left op right =>
    group (wrapsOperand op.level false left) (toksOf left) ++
      .op op :: group (wrapsOperand op.level true right) (toksOf right)
  | .assign target value => toksOf target ++ .assign :: toksOf value

def argToks : List Expr → List C.Tok
  | [] => []
  | a :: as => toksOf a ++ moreArgToks as

def moreArgToks : List Expr → List C.Tok
  | [] => []
  | a :: as => .comma :: toksOf a ++ moreArgToks as

end

/-- The piece at the end of a text is a number. -/
def endsInNumber (text : List Char) : Bool :=
  C.isNumber (pending C.isSpace C.joins [] text)

/-- The text begins with the operator's own sign. -/
def signed (op : PrefixOp) (text : List Char) : Bool := text.head? == some op.char && op != .not

mutual

/-- C's tokens of the text are the ones meant. -/
def Legible : Expr → Prop
  | .int t => C.isIntConstant t = true
  | .name t => C.keywords.contains t = false
  | .member base field =>
    match enumCase enums base field with
    | some text => C.keywords.contains text = false
    | none => Legible base ∧ C.keywords.contains field = false ∧
        endsInNumber (emitTight enums base) = false
  | .call base args => Legible base ∧ LegibleArgs args
  | .unary op operand => Legible operand ∧ signed op (emitTight enums operand) = false
  | .binary left _ right => Legible left ∧ Legible right
  | .assign target value => Legible target ∧ Legible value

def LegibleArgs : List Expr → Prop
  | [] => True
  | a :: as => Legible a ∧ LegibleArgs as

end

theorem tokens_parens (wrap : Bool) (text : List Char) :
    tokens (parens wrap text) = group wrap (tokens text) := by
  cases wrap
  · rfl
  · exact tokens_group text

variable {enums} {e : Expr} {t text : List Char} {args : List Expr} {field : List Char}
  {op : PrefixOp}

theorem mangleName_word (word : isWord t = true)
    (word' : isWord field = true) : isWord (mangleName t ++ '_' :: field) = true := by
  obtain ⟨c, cs, rfl, letter, rest⟩ := isWord_cons word
  obtain ⟨d, ds, rfl, letter', rest'⟩ := isWord_cons word'
  have plain : ∀ x, wordChar x = true → (if x = '.' then '_' else x) = x := by
    rintro x body
    rw [if_neg]
    rintro rfl
    exact absurd body (by decide)
  have first : wordChar c = true := by rw [wordChar, letter, Bool.true_or]
  have second : wordChar d = true := by rw [wordChar, letter', Bool.true_or]
  rw [mangleName, take_succ_cons, map_cons, plain c first, cons_append, isWord,
    letter, Bool.true_and, all_eq_true]
  intro x inside
  rw [mem_append, mem_cons, mem_cons, mem_map] at inside
  obtain ⟨y, inside, rfl⟩ | rfl | rfl | inside := inside
  · have body := rest y (mem_of_mem_take inside)
    rw [plain y body, body]
  · rfl
  · exact second
  · exact rest' x inside

theorem enumCase_word {base : Expr} (formed : base.Formed)
    (word : isWord field = true) (found : enumCase enums base field = some text) :
    isWord text = true := by
  unfold enumCase at found
  split at found
  next t =>
    simp only [Option.bind_eq_bind, Option.bind_eq_some_iff, Option.ite_none_right_eq_some,
      Option.some.injEq] at found
    obtain ⟨en, known, _, rfl⟩ := found
    have same : mangleName en.name = mangleName t := by simpa using List.find?_some known
    rw [same]
    exact mangleName_word formed word
  · cases found

/-- What a text can begin with. -/
def starter (c : Char) : Bool := C.wordChar c || c == '(' || c == '-' || c == '+' || c == '!'

theorem parens_starts (wrap : Bool) (starts : ∃ c cs, text = c :: cs ∧ starter c = true) :
    ∃ c cs, parens wrap text = c :: cs ∧ starter c = true := by
  cases wrap with
  | false => exact starts
  | true => exact ⟨'(', _, rfl, rfl⟩

theorem word_starts (word : isWord t = true) : ∃ c cs, t = c :: cs ∧ starter c = true := by
  obtain ⟨c, cs, rfl, letter, _⟩ := isWord_cons word
  exact ⟨c, cs, rfl, by simp [starter, wordChar, letter]⟩

theorem emitExpr_starts (formed : e.Formed) :
    ∃ c cs, emitExpr enums e = c :: cs ∧ starter c = true := by
  induction e with
  | int t =>
    obtain ⟨c, cs, rfl, digit, _⟩ := isDigits_cons formed
    exact ⟨c, cs, rfl, by simp [starter, wordChar, digit]⟩
  | name t => exact word_starts formed
  | member base field ih =>
    rw [emitExpr]
    split
    next found => exact word_starts (enumCase_word formed.1 formed.2 found)
    · obtain ⟨c, cs, text, starts⟩ := parens_starts (isLoose base) (ih formed.1)
      exact ⟨c, _, by rw [text, cons_append], starts⟩
  | call base args ih _ =>
    obtain ⟨c, cs, text, starts⟩ := parens_starts (isLoose base) (ih formed.1)
    exact ⟨c, _, by rw [emitExpr, text, cons_append, cons_append], starts⟩
  | unary op operand _ => exact ⟨op.char, _, rfl, by cases op <;> rfl⟩
  | binary left op right ih _ =>
    obtain ⟨c, cs, text, starts⟩ :=
      parens_starts (wrapsOperand (operatorPrecedence op.text) false left) (ih formed.1)
    exact ⟨c, _, by rw [emitExpr, text, cons_append, cons_append], starts⟩
  | assign target value ih _ =>
    obtain ⟨c, cs, text, starts⟩ := ih formed.1
    exact ⟨c, _, by rw [emitExpr, text, cons_append], starts⟩

variable (enums) in
theorem emitTight_starts (formed : e.Formed) :
    ∃ c cs, emitTight enums e = c :: cs ∧ starter c = true :=
  parens_starts _ (emitExpr_starts formed)

theorem joins_prefixOp {c : Char} (starts : starter c = true)
    (other : (c == op.char && op != .not) = false) : joins [op.char] c = false := by
  have differs : c ≠ '>' ∧ c ≠ '=' := by
    constructor <;> rintro rfl <;> exact absurd starts (by decide)
  have outside : ¬ [op.char, c] ∈ punctuators := by
    cases op <;> simp_all [PrefixOp.char, punctuators]
  unfold joins
  cases op <;> simp_all [PrefixOp.char, isNumber, nondigit]

theorem tokens_unary
    (starts : ∃ c cs, text = c :: cs ∧ starter c = true) (apart : signed op text = false) :
    tokens (op.char :: text) = prefixTok op :: tokens text := by
  obtain ⟨c, cs, rfl, starts⟩ := starts
  have alone : tokens [op.char] = [prefixTok op] := by cases op <;> rfl
  have split : tokens ([op.char] ++ c :: cs) = tokens [op.char] ++ tokens (c :: cs) := by
    apply tokens_split
    intro d here
    obtain rfl : c = d := by simpa using here
    have piece : pending isSpace joins [] [op.char] = [op.char] := by cases op <;> rfl
    rw [piece]
    exact .inr (joins_prefixOp starts (by simpa [signed] using apart))
  rw [alone] at split
  exact split

theorem tokens_emitMoreArgs (text : List Char) (args : List Expr) :
    tokens (text ++ emitMoreArgs enums args) =
      tokens text ++ args.flatMap fun a => .comma :: tokens (emitExpr enums a) := by
  induction args generalizing text with
  | nil => simp [emitMoreArgs]
  | cons a args ih =>
    have shape : text ++ emitMoreArgs enums (a :: args) =
        (text ++ ',' :: ' ' :: emitExpr enums a) ++ emitMoreArgs enums args := by
      simp [emitMoreArgs]
    rw [shape, ih, tokens_comma, flatMap_cons, append_assoc]

theorem moreArgToks_eq (args : List Expr) :
    moreArgToks enums args = args.flatMap fun a => .comma :: toksOf enums a := by
  induction args with
  | nil => rfl
  | cons a args ih => rw [moreArgToks, ih, flatMap_cons]

variable (enums) in
/-- C's tokens of the text are the ones meant, or one of them is no token of an expression. -/
def Spelled (e : Expr) : Prop :=
  (Legible enums e → C.tokens (emitExpr enums e) = toksOf enums e) ∧
    ((∀ t, .other t ∉ C.tokens (emitExpr enums e)) → Legible enums e)

theorem Legible.args_iff : LegibleArgs enums args ↔ ∀ a ∈ args, Legible enums a := by
  induction args with
  | nil => simp [LegibleArgs]
  | cons a args ih => simp [LegibleArgs, ih]

theorem spelled_args (each : ∀ a ∈ args, Spelled enums a) :
    (LegibleArgs enums args → tokens (emitArgs enums args) = argToks enums args) ∧
      ((∀ t, .other t ∉ tokens (emitArgs enums args)) → LegibleArgs enums args) := by
  rw [Legible.args_iff]
  cases args with
  | nil => exact ⟨fun _ => rfl, fun _ => by simp⟩
  | cons a args =>
    have toks : tokens (emitArgs enums (a :: args)) = tokens (emitExpr enums a) ++
        args.flatMap fun b => .comma :: tokens (emitExpr enums b) := by
      rw [emitArgs, tokens_emitMoreArgs]
    constructor
    · intro legible
      have first := mem_cons_self (a := a) (l := args)
      rw [toks, argToks, moreArgToks_eq, (each a first).1 (legible a first)]
      congr 1
      apply flatMap_congr
      intro b inside
      have later := mem_cons_of_mem a inside
      rw [(each b later).1 (legible b later)]
    · intro readable b inside
      apply (each b inside).2
      intro t found
      apply readable t
      rw [toks, mem_append, mem_flatMap]
      obtain rfl | later := mem_cons.mp inside
      · exact .inl found
      · exact .inr ⟨b, later, mem_cons_of_mem _ found⟩

theorem mem_group {wrap : Bool} {ts : List C.Tok} : .other t ∈ group wrap ts ↔ .other t ∈ ts := by
  cases wrap <;> simp [group]

theorem spelled (formed : e.Formed) : Spelled enums e := by
  induction e with
  | int t =>
    unfold Spelled
    rw [emitExpr, C.tokens_digits formed, Legible]
    cases C.isIntConstant t <;> simp [toksOf]
  | name t =>
    unfold Spelled
    rw [emitExpr, C.tokens_word formed, Legible]
    cases C.keywords.contains t <;> simp [toksOf]
  | member base field ih =>
    obtain ⟨meant, legible⟩ := ih formed.1
    unfold Spelled
    rw [emitExpr, Legible, toksOf]
    split
    next text found =>
      rw [C.tokens_word (enumCase_word formed.1 formed.2 found)]
      cases C.keywords.contains text <;> simp
    · cases number : endsInNumber (emitTight enums base) with
      | true =>
        obtain ⟨t, found⟩ := C.tokens_number_member formed.2 number
        exact ⟨by simp, fun readable => absurd found (readable t)⟩
      | false =>
        have toks := (C.tokens_member formed.2 number).1
        unfold emitTight at toks
        rw [toks, tokens_parens, C.tokens_word formed.2]
        cases keyword : C.keywords.contains field with
        | true => exact ⟨by simp, fun readable => absurd (by simp) (readable field)⟩
        | false =>
          refine ⟨fun h => by rw [meant h.1]; rfl, fun readable => ⟨legible ?_, rfl, rfl⟩⟩
          intro t found
          exact readable t (mem_append_left _ (mem_group.mpr found))
  | call base args ih each =>
    obtain ⟨meant, legible⟩ := ih formed.1
    obtain ⟨meant', legible'⟩ := spelled_args
      fun a inside => each a inside (argsFormed_iff.mp formed.2 a inside)
    unfold Spelled
    have toks : C.tokens (emitExpr enums (.call base args)) =
        group (isLoose base) (C.tokens (emitExpr enums base)) ++
          .lparen :: C.tokens (emitArgs enums args) ++ [.rparen] := by
      rw [emitExpr, append_assoc, cons_append, C.tokens_closing rfl, tokens_parens,
        ← cons_append, C.tokens_group, append_assoc]
    rw [toks, Legible, toksOf]
    constructor
    · rintro ⟨first, second⟩
      rw [meant first, meant' second]
    · intro readable
      refine ⟨legible fun t found => readable t ?_, legible' fun t found => readable t ?_⟩ <;>
        simp [mem_group, found]
  | unary op operand ih =>
    obtain ⟨meant, legible⟩ := ih formed
    unfold Spelled
    have starts := emitTight_starts enums (e := operand) formed
    rw [Legible, toksOf]
    have text : emitExpr enums (.unary op operand) = op.char :: emitTight enums operand := rfl
    rw [text]
    cases sign : signed op (emitTight enums operand) with
    | true =>
      obtain ⟨c, cs, same, _⟩ := starts
      rw [same] at sign ⊢
      have : c = op.char ∧ (op = .neg ∨ op = .pos) := by
        cases op <;> simp_all [signed]
      obtain ⟨rfl, known⟩ := this
      have double := C.tokens_double (c := op.char) (by
        obtain rfl | rfl := known
        · exact .inl rfl
        · exact .inr rfl) cs
      exact ⟨by simp, fun readable => absurd double (readable _)⟩
    | false =>
      rw [tokens_unary starts sign, emitTight, tokens_parens]
      refine ⟨fun h => by rw [meant h.1], fun readable => ⟨legible fun t found => ?_, rfl⟩⟩
      exact readable t (mem_cons_of_mem _ (mem_group.mpr found))
  | binary left op right ih ih' =>
    obtain ⟨meant, legible⟩ := ih formed.1
    obtain ⟨meant', legible'⟩ := ih' formed.2
    unfold Spelled
    rw [emitExpr, operatorPrecedence_text, C.tokens_binary, tokens_parens, tokens_parens,
      Legible, toksOf]
    constructor
    · rintro ⟨first, second⟩
      rw [meant first, meant' second]
    · intro readable
      refine ⟨legible fun t found => readable t ?_, legible' fun t found => readable t ?_⟩ <;>
        simp [mem_group, found]
  | assign target value ih ih' =>
    obtain ⟨meant, legible⟩ := ih formed.1
    obtain ⟨meant', legible'⟩ := ih' formed.2.1
    unfold Spelled
    rw [emitExpr, C.tokens_assign, Legible, toksOf]
    constructor
    · rintro ⟨first, second⟩
      rw [meant first, meant' second]
    · intro readable
      refine ⟨legible fun t found => readable t ?_, legible' fun t found => readable t ?_⟩ <;>
        simp [found]

end Argentum.Sterling
