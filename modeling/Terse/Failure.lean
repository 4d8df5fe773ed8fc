import Terse.Literal.Operator
import Terse.Number.Digits
import Terse.Value.Basic

namespace Terse

inductive FailureKind where
  | malformedShape
  | unsupportedCallable
  | arity
  | typeMismatch
  | domain
  | codec
  /-- A sequence was pulled while it was producing its own next element. -/
  | reentrant
  /-- Raised by the body of a callable. -/
  | user
  deriving DecidableEq

def FailureKind.name : FailureKind → String
  | .malformedShape => "malformed shape"
  | .unsupportedCallable => "unsupported callable"
  | .arity => "arity mismatch"
  | .typeMismatch => "type mismatch"
  | .domain => "domain error"
  | .codec => "codec error"
  | .reentrant => "re-entrant sequence"
  | .user => "error"

inductive Failure where
  | badOperand (sign : Sign) (found : ValueType)
  | badOperands (op : Operator) (left right : ValueType)
  | divisionByZero
  | fractionalCount (count : Rat)
  | hugeCount (count : Rat)
  | smallBase (base : Int)
  | emptyAlphabet
  | foreignSymbol (symbol : Char) (alphabet : String)
  | negativeValue (value : Int)
  | singleSymbol (value : Int)
  | digitOutOfRange (digit : Nat)
  | noTextCodec (encoded : String)
  | noNumberCodec (encoded : String)
  | notIterable (found : ValueType)
  /-- The value is kept in its written form, which depends on what has been realized of it. -/
  | notADigit (shown : String)
  | notANumber (text : String)
  | irreversible (number : Rat)
  | shapeNotList (found : ValueType)
  | emptyContent
  | badRing (found : ValueType)
  | functionMembership
  | reentrantPull
  | notCallable (found : ValueType)
  | argumentCount (name : String) (least most given : Nat)
  /-- Raised by the body of a callable or of a native generator. -/
  | raised (kind : FailureKind) (message : String)
  deriving DecidableEq

namespace Failure

def kind : Failure → FailureKind
  | badOperand .. | badOperands .. | fractionalCount _ | notIterable _ | notADigit _
  | shapeNotList _ | badRing _ | functionMembership => .typeMismatch
  | divisionByZero | hugeCount _ | smallBase _ | emptyAlphabet | foreignSymbol ..
  | negativeValue _ | singleSymbol _ | digitOutOfRange _ | notANumber _ | irreversible _ => .domain
  | noTextCodec _ | noNumberCodec _ => .codec
  | emptyContent => .malformedShape
  | reentrantPull => .reentrant
  | notCallable _ => .unsupportedCallable
  | argumentCount .. => .arity
  | raised kind _ => kind

def arityText (least most : Nat) : String :=
  if least = most then natText least else natText least ++ "-" ++ natText most

def message : Failure → String
  | badOperand sign found =>
    "bad operand type for unary " ++ sign.symbol ++ ": " ++ found.name
  | badOperands op left right =>
    "unsupported operand types for " ++ op.symbol ++ ": " ++ left.name ++ " and " ++ right.name
  | divisionByZero => "division by zero"
  | fractionalCount count => "cannot repeat a sequence " ++ ratText count ++ " times"
  | hugeCount count => "repeat count " ++ ratText count ++ " is too large"
  | smallBase base => "base must be at least 2, got " ++ intText base
  | emptyAlphabet => "alphabet must not be empty"
  | foreignSymbol symbol alphabet =>
    "'" ++ symbol.toString ++ "' is not in the alphabet \"" ++ alphabet ++ "\""
  | negativeValue value => "cannot encode negative value " ++ intText value
  | singleSymbol value => "a one-symbol alphabet can only encode 0, got " ++ intText value
  | digitOutOfRange digit => "digit " ++ natText digit ++ " out of range"
  | noTextCodec encoded => "no codec available to decompress string \"" ++ encoded ++ "\""
  | noNumberCodec encoded => "no codec available to decompress number \"" ++ encoded ++ "\""
  | notIterable found => "cannot iterate over " ++ found.name
  | notADigit shown => shown ++ " is not a decimal digit"
  | notANumber text => "\"" ++ text ++ "\" is not a number"
  | irreversible number => "cannot reverse " ++ ratText number
  | shapeNotList found => "mold expects a List shape, got " ++ found.name
  | emptyContent => "cannot fill a shape from empty content"
  | badRing found => "ring_translate expects Text or List, got " ++ found.name
  | functionMembership => "cannot test membership in a Function"
  | reentrantPull => "lazy sequence pulled while producing its own next element"
  | notCallable found => "Cannot call " ++ found.name
  | argumentCount name least most given =>
    name ++ " expects " ++ arityText least most ++ " argument(s), got " ++ natText given
  | raised _ message => message

end Failure

end Terse
