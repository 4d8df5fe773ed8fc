import Terse.Literal.Grammar

/-! Parsing on a state that lasts: the tokens, how many of them have been taken, and how many levels are
open. One call goes on where the one before left off, be it behind an expression or at a failure. Nothing
bounds the loops or the nesting but the tokens and the count of open levels. The functions that call one
another are therefore given a number of steps, one for every call inside a call, and where these run out
there is no outcome, not a failure: a call comes to an end if it has an outcome for all large numbers. -/
namespace Terse

/-- What a parser keeps between calls and within them. -/
structure ParseState where
  grammar : Grammar
  tokens : List Token
  position : Nat
  depth : Nat
  deriving DecidableEq

namespace ParseState

def start (grammar : Grammar) (tokens : List Token) : ParseState := ⟨grammar, tokens, 0, 0⟩

def next? (state : ParseState) : Option Token :=
  state.tokens[state.position]?

def place (state : ParseState) : Span :=
  (state.next?.map Token.span).getD .origin

def isAt (state : ParseState) (kind : TokenKind) : Bool :=
  match state.next? with
  | some token => token.kind = kind
  | none => false

def isAtEnd (state : ParseState) : Bool :=
  match state.next? with
  | some token => token.kind = .eof
  | none => true

def finish (state : ParseState) : Span :=
  (state.tokens.getLast?.map Token.span).getD .origin

end ParseState

/-- What parsing does to the state. It may fail, which leaves the state as it then is, or not come to an
end. -/
abbrev Parsing (α : Type) := ExceptT ParseFailure (StateT ParseState Option) α

namespace Parsing

def fail {α : Type} (fault : ParseFault) (span : Span) : Parsing α :=
  throw ⟨fault, span⟩

def unfinished {α : Type} : Parsing α :=
  fun _ => none

def take : Parsing Token := do
  let state ← get
  match state.next? with
  | none => fail .unexpectedEnd state.finish
  | some token =>
    if token.kind = .eof then fail .unexpectedEnd token.span
    else
      set { state with position := state.position + 1 }
      return token

def expect (wanted : TokenKind) : Parsing Token := do
  let state ← get
  if state.isAt wanted then take
  else fail (.expected wanted ((state.next?.map Token.kind).getD .eof)) state.place

def separator (close : TokenKind) : Parsing Unit := do
  let state ← get
  if state.isAt close then return ()
  else
    let _ ← expect .comma
    return ()

def number (digits : String) (span : Span) : Parsing (Expr Span) :=
  match Decimal.parse? digits.toList with
  | some q => return .number span q
  | none => fail (.badNumber digits) span

mutual

/-- An expression whose operators bind more tightly than `floor`. It is one level deeper, and the level
is closed behind it whatever came of it. -/
def level : (steps floor : Nat) → Parsing (Expr Span)
  | 0, _ => unfinished
  | steps + 1, floor => fun state => do
    if nestingLimit ≤ state.depth then return (.error ⟨.tooDeep, state.place⟩, state)
    else
      let (result, state) ← chain steps floor { state with depth := state.depth + 1 }
      return (result, { state with depth := state.depth - 1 })

def chain : (steps floor : Nat) → Parsing (Expr Span)
  | 0, _ => unfinished
  | steps + 1, floor => do
    let first ← operand steps
    chainFrom steps floor first

def chainFrom : (steps floor : Nat) → (left : Expr Span) → Parsing (Expr Span)
  | 0, _, _ => unfinished
  | steps + 1, floor, left => do
    let state ← get
    match state.next?.bind fun token => Parser.operatorIn state.grammar token.kind with
    | none => return left
    | some op =>
      if op.precedence ≤ floor then return left
      else
        let _ ← take
        let right ← level steps op.precedence
        chainFrom steps floor (.binary (left.note.join right.note) op left right)

def operand : (steps : Nat) → Parsing (Expr Span)
  | 0 => unfinished
  | steps + 1 => do
    let token ← take
    match token.kind with
    | .number digits => number digits token.span
    | .text content => return .text token.span content
    | .trueWord => return .boolean token.span true
    | .falseWord => return .boolean token.span false
    | .minus => signed steps .minus token.span
    | .plus => signed steps .plus token.span
    | .leftBracket =>
      let items ← elementsFrom steps .rightBracket []
      return .list (token.span.join items.2) items.1
    | .leftParen => parenthesized steps token.span
    | other => fail (.unexpected other) token.span

def signed : (steps : Nat) → (sign : Sign) → (span : Span) → Parsing (Expr Span)
  | 0, _, _ => unfinished
  | steps + 1, sign, span => do
    let state ← get
    if state.grammar = .literal && !(state.next?.any fun token => Parser.isNumber token.kind) then
      fail (.loneSign sign) span
    else
      let right ← level steps Sign.precedence
      return .signed (span.join right.note) sign right

def elementsFrom : (steps : Nat) → (close : TokenKind) → (items : List (Expr Span)) →
    Parsing (List (Expr Span) × Span)
  | 0, _, _ => unfinished
  | steps + 1, close, items => do
    let state ← get
    if state.isAt close || state.isAtEnd then
      let token ← expect close
      return (items, token.span)
    else
      let item ← level steps 0
      separator close
      elementsFrom steps close (items ++ [item])

def parenthesized : (steps : Nat) → (opening : Span) → Parsing (Expr Span)
  | 0, _ => unfinished
  | steps + 1, opening => do
    let state ← get
    if state.isAt .rightParen then
      let closing ← take
      return .list (opening.join closing.span) []
    else
      let first ← level steps 0
      let state ← get
      if state.isAt .rightParen then
        let closing ← take
        return first.withNote (opening.join closing.span)
      else
        let _ ← expect .comma
        let others ← elementsFrom steps .rightParen []
        return .list (opening.join others.2) (first :: others.1)

end

def expression (steps : Nat) : Parsing (Expr Span) :=
  level steps 0

def whole (steps : Nat) : Parsing (Expr Span) := do
  let e ← expression steps
  let state ← get
  match state.next? with
  | none => return e
  | some token =>
    if token.kind = .eof then return e
    else fail (.trailing token.kind) token.span

end Parsing

inductive Call where
  | expression
  | whole
  deriving DecidableEq

def Call.run (steps : Nat) : Call → Parsing (Expr Span)
  | .expression => Parsing.expression steps
  | .whole => Parsing.whole steps

/-- What each of several calls in succession comes to, and the state behind the last. -/
def ParseState.runAll (steps : Nat) (state : ParseState) :
    List Call → Option (List (Except ParseFailure (Expr Span)) × ParseState)
  | [] => some ([], state)
  | call :: calls => do
    let (result, state) ← call.run steps state
    let (results, state) ← state.runAll steps calls
    return (result :: results, state)

end Terse
