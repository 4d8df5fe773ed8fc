import Terse.Literal.Expr
import Terse.Literal.Token
import Terse.Number.Decimal

/-! Parsing tokens into an expression. A parser takes the tokens that are left and answers, in
success and in failure alike, with the tokens left after it, so reading can go on behind a failure.
An expression at one nesting level calls for expressions one level below; the number of levels is
the recursion, and the loops within a level run over the tokens. -/
namespace Terse

inductive Grammar where
  /-- Numbers, texts, truth values, lists and tuples, and a sign directly before a number. -/
  | literal
  /-- Literals under signs and operators, with grouping. -/
  | arithmetic
  deriving DecidableEq

inductive ParseFault where
  | unexpectedEnd
  | unexpected (found : TokenKind)
  | trailing (found : TokenKind)
  | expected (wanted found : TokenKind)
  | loneSign (sign : Sign)
  | badNumber (digits : String)
  | tooDeep
  deriving DecidableEq

structure ParseFailure where
  fault : ParseFault
  span : Span
  deriving DecidableEq

/-- The levels of lists, groups and operands that one expression may have. -/
def nestingLimit : Nat := 256

def ParseFault.message : ParseFault → String
  | .unexpectedEnd => "Unexpected end of input"
  | .unexpected found => "Unexpected " ++ found.describe
  | .trailing found => "Unexpected " ++ found.describe ++ " after expression"
  | .expected wanted found => "Expected " ++ wanted.describe ++ ", got " ++ found.describe
  | .loneSign sign => "Expected a number after unary " ++ sign.symbol
  | .badNumber digits => "Invalid number literal: " ++ digits
  | .tooDeep => "Expression nested deeper than " ++ natText nestingLimit ++ " levels"

inductive Parsed (α : Type) where
  | ok (a : α) (rest : List Token)
  | error (e : ParseFailure) (rest : List Token)

abbrev Parser (α : Type) := List Token → Parsed α

namespace Parser

variable {α β : Type}

def done (a : α) : Parser α := fun tokens => .ok a tokens

def fail (fault : ParseFault) (span : Span) : Parser α := fun tokens => .error ⟨fault, span⟩ tokens

def andThen (p : Parser α) (f : α → Parser β) : Parser β := fun tokens =>
  match p tokens with
  | .ok a rest => f a rest
  | .error e rest => .error e rest

/-- Parses by what stands in front: the kind of the next token, the end of input if there is none,
and where it stands. -/
def look (f : TokenKind → Span → Parser α) : Parser α := fun tokens =>
  match tokens with
  | [] => f .eof .origin []
  | token :: rest => f token.kind token.span (token :: rest)

end Parser

structure Setting where
  grammar : Grammar
  /-- Reported when the tokens run out without an end marker. -/
  finish : Span
  deriving DecidableEq

namespace Setting

/-- Running out of tokens is reported at the last of them. -/
def ofTokens (grammar : Grammar) (tokens : List Token) : Setting :=
  ⟨grammar, (tokens.getLast?.map Token.span).getD .origin⟩

end Setting

namespace Parser

/-- The next token. The end marker is never taken. -/
def take (setting : Setting) : Parser Token
  | [] => .error ⟨.unexpectedEnd, setting.finish⟩ []
  | token :: rest =>
    if token.kind = .eof then .error ⟨.unexpectedEnd, token.span⟩ (token :: rest)
    else .ok token rest

def expect (setting : Setting) (wanted : TokenKind) : Parser Token :=
  look fun found span =>
    if found = wanted then take setting else fail (.expected wanted found) span

def operator? : TokenKind → Option Operator
  | .plus => some .add
  | .minus => some .sub
  | .star => some .mul
  | .slash => some .div
  | .percent => some .mod
  | _ => none

def operatorIn (grammar : Grammar) (found : TokenKind) : Option Operator :=
  match grammar with
  | .literal => none
  | .arithmetic => operator? found

def isNumber : TokenKind → Bool
  | .number _ => true
  | _ => false

section Level

variable (setting : Setting) (inner : (floor : Nat) → Parser (Expr Span))

def separator (close : TokenKind) : Parser Unit :=
  look fun found _ =>
    if found = close then done ()
    else andThen (expect setting .comma) fun _ => done ()

/-- Elements up to the closing mark, a comma behind each that is not the last and perhaps behind
the last, with the place of the mark. As every element takes a token, as many rounds as there are
tokens suffice. -/
def elementsUpTo (close : TokenKind) : (rounds : Nat) → Parser (List (Expr Span) × Span)
  | 0 => andThen (expect setting close) fun token => done ([], token.span)
  | rounds + 1 =>
    look fun found _ =>
      if found = close ∨ found = .eof then
        andThen (expect setting close) fun token => done ([], token.span)
      else
        andThen (inner 0) fun first =>
        andThen (separator setting close) fun _ =>
        andThen (elementsUpTo close rounds) fun others => done (first :: others.1, others.2)

def elements (close : TokenKind) : Parser (List (Expr Span) × Span) := fun tokens =>
  elementsUpTo setting inner close tokens.length tokens

/-- What follows an opening parenthesis: nothing or elements with a comma make a tuple, which is
read as a list; one expression alone is a group, which is that expression over a wider stretch. -/
def parenthesized (opening : Span) : Parser (Expr Span) :=
  look fun found _ =>
    if found = .rightParen then
      andThen (take setting) fun closing => done (.list (opening.join closing.span) [])
    else
      andThen (inner 0) fun first =>
      look fun found _ =>
        if found = .rightParen then
          andThen (take setting) fun closing => done (first.withNote (opening.join closing.span))
        else
          andThen (expect setting .comma) fun _ =>
          andThen (elements setting inner .rightParen) fun others =>
          done (.list (opening.join others.2) (first :: others.1))

def signedOperand (sign : Sign) (span : Span) : Parser (Expr Span) :=
  look fun found _ =>
    if setting.grammar = .literal && !isNumber found then fail (.loneSign sign) span
    else
      andThen (inner Sign.precedence) fun operand =>
      done (.signed (span.join operand.note) sign operand)

def operandFrom (token : Token) : Parser (Expr Span) :=
  match token.kind with
  | .number digits =>
    match Decimal.parse? digits.toList with
    | some q => done (.number token.span q)
    | none => fail (.badNumber digits) token.span
  | .text content => done (.text token.span content)
  | .trueWord => done (.boolean token.span true)
  | .falseWord => done (.boolean token.span false)
  | .minus => signedOperand setting inner .minus token.span
  | .plus => signedOperand setting inner .plus token.span
  | .leftBracket =>
    andThen (elements setting inner .rightBracket) fun items =>
    done (.list (token.span.join items.2) items.1)
  | .leftParen => parenthesized setting inner token.span
  | other => fail (.unexpected other) token.span

def operand : Parser (Expr Span) :=
  andThen (take setting) fun token => operandFrom setting inner token

/-- The operators that bind more tightly than `floor` and their right operands, from the left. As
every operator takes a token, as many rounds as there are tokens suffice. -/
def chainFrom (floor : Nat) : (rounds : Nat) → Expr Span → Parser (Expr Span)
  | 0, left => done left
  | rounds + 1, left =>
    look fun found _ =>
      match operatorIn setting.grammar found with
      | none => done left
      | some op =>
        if op.precedence ≤ floor then done left
        else
          andThen (take setting) fun _ =>
          andThen (inner op.precedence) fun right =>
          chainFrom floor rounds (.binary (left.note.join right.note) op left right)

def chain (floor : Nat) : Parser (Expr Span) :=
  andThen (operand setting inner) fun left tokens =>
    chainFrom setting inner floor tokens.length left tokens

end Level

/-- An expression of at most `levels` levels whose operators bind more tightly than `floor`. -/
def expressionWithin (setting : Setting) : (levels : Nat) → (floor : Nat) → Parser (Expr Span)
  | 0, _ => look fun _ span => fail .tooDeep span
  | levels + 1, floor => chain setting (expressionWithin setting levels) floor

def expression (setting : Setting) : Parser (Expr Span) :=
  expressionWithin setting nestingLimit 0

def whole (setting : Setting) : Parser (Expr Span) :=
  andThen (expression setting) fun e =>
  look fun found span =>
    if found = .eof then done e else fail (.trailing found) span

end Parser

def parse (grammar : Grammar) (tokens : List Token) : Except ParseFailure (Expr Span) :=
  match Parser.whole (.ofTokens grammar tokens) tokens with
  | .ok e _ => .ok e
  | .error error _ => .error error

end Terse
