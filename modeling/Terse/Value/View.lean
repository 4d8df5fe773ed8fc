import Terse.Lazy.Pull
import Terse.Number.Decimal
import Terse.Value.Display

namespace Terse

variable {σ : Type}

inductive NumberView where
  /-- The characters of its decimal text, digits as numbers. -/
  | digits
  | range
  deriving DecidableEq

namespace Decimal

/-- A character of a decimal text as a value: sign and point stay text. -/
def itemOf (c : Char) : Value :=
  if c.isDigit then .number (digitValue c) else .text (String.singleton c)

def items (q : Rat) : List Value :=
  (chars q).map itemOf

def charOf? (item : Value) : Option Char :=
  match item with
  | .text s => if s = "-" then some '-' else if s = "." then some '.' else none
  | item =>
    match item.integer? with
    | some d => if 0 ≤ d ∧ d < 10 then some (Nat.digitChar d.toNat) else none
    | none => none

def charsOf (store : Store) : List Value → Except Failure (List Char)
  | [] => .ok []
  | item :: items =>
    match charOf? item with
    | none => .error (.notADigit (store.display item))
    | some c => (charsOf store items).map (c :: ·)

def ofItems (store : Store) (items : List Value) : Except Failure Rat :=
  match charsOf store items with
  | .error e => .error e
  | .ok cs =>
    match parse? cs with
    | some q => .ok q
    | none => .error (.notANumber (String.ofList cs))

def reverse (q : Rat) : Except Failure Rat :=
  match reversed? q with
  | some r => .ok r
  | none => .error (.irreversible q)

end Decimal

def truncate (q : Rat) : Int :=
  q.num.tdiv q.den

namespace Value

def isSequence (value : Value) : Bool :=
  value.sequence?.isSome

def rangeOf (flags : Flags) (q : Rat) : Action σ Value :=
  lazy <$> Handle.range flags.rangeFrom (truncate q + flags.rangeReach)

/-- The value as something to go through. For numbers the flags decide unless a view is given;
texts and sequences are taken as they are. -/
def view (value : Value) (wanted : Option NumberView) : Action σ Value := do
  match value with
  | number q =>
    let flags := (← Action.session).flags
    match wanted.getD (if flags.numbersAreRanges then .range else .digits) with
    | .range => rangeOf flags q
    | .digits => return list (Decimal.items q)
  | function f => .fail (.notIterable (function f).type)
  | other => return other

def wrapped (value : Value) : Value :=
  if value.isSequence then value else list [value]

def unwrapped (value : Value) : Action σ Value :=
  match value.sequence? with
  | none => return value
  | some sequence => do
    match ← sequence.get 0 with
    | none => return value
    | some first =>
      match ← sequence.get 1 with
      | none => return first
      | some _ => return value

end Value

end Terse
