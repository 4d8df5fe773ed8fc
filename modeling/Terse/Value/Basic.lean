/-! Values. A lazy sequence is a handle: the elements live in a buffer of the store, and the handle
carries the buffer's number and a reading position of its own. A callable is known by its number
and its calling convention; what it does is kept apart, so values are plain data. -/
namespace Terse

inductive Convention where
  | primitive (name : String) (least most : Nat)
  | closure
  | named (name : String)
  deriving DecidableEq

structure Callable where
  id : Nat
  convention : Convention
  deriving DecidableEq

/-- A handle on the buffer of a lazy sequence, with the position of its next read. -/
structure Handle where
  buffer : Nat
  cursor : Nat
  deriving DecidableEq

inductive Value where
  | number (q : Rat)
  | text (s : String)
  | list (items : List Value)
  | lazy (handle : Handle)
  | function (f : Callable)
  deriving Inhabited

inductive ValueType where
  | number
  | text
  | list
  | lazyList
  | function
  deriving DecidableEq

def ValueType.name : ValueType → String
  | .number => "Number"
  | .text => "Text"
  | .list => "List"
  | .lazyList => "LazyList"
  | .function => "Function"

inductive Sequence where
  | items (values : List Value)
  | lazy (handle : Handle)

def Sequence.toValue : Sequence → Value
  | .items values => .list values
  | .lazy handle => .lazy handle

namespace Convention

def tag : Convention → String
  | .primitive _ _ _ => "primitive"
  | .closure => "closure"
  | .named _ => "function"

def name : Convention → String
  | .primitive name _ _ => name
  | .closure => "λ"
  | .named name => name

end Convention

namespace Callable

def name (f : Callable) : String := f.convention.name

def display (f : Callable) : String :=
  match f.convention with
  | .primitive name _ _ => "<primitive " ++ name ++ ">"
  | .closure => "<closure>"
  | .named name => "<function " ++ name ++ ">"

def describe (f : Callable) : String :=
  "Callable(" ++ f.convention.tag ++ " " ++ f.name ++ ")"

end Callable

namespace Value

def ofInt (n : Int) : Value := .number n

def ofBool (b : Bool) : Value := .number (if b then 1 else 0)

def empty : Value := .list []

def type : Value → ValueType
  | .number _ => .number
  | .text _ => .text
  | .list _ => .list
  | .lazy _ => .lazyList
  | .function _ => .function

def sequence? : Value → Option Sequence
  | .list items => some (.items items)
  | .lazy handle => some (.lazy handle)
  | _ => none

def number? : Value → Option Rat
  | .number q => some q
  | _ => none

def integer? : Value → Option Int
  | .number q => if q.den = 1 then some q.num else none
  | _ => none

mutual

/-- Equality that pulls nothing: lazy sequences agree when they share a buffer, functions when
they are the same callable. -/
def same : Value → Value → Bool
  | .number p, .number q => p = q
  | .text s, .text t => s = t
  | .list items, .list others => sameItems items others
  | .lazy h, .lazy k => h.buffer = k.buffer
  | .function f, .function g => f = g
  | _, _ => false

def sameItems : List Value → List Value → Bool
  | [], [] => true
  | v :: vs, w :: ws => same v w && sameItems vs ws
  | _, _ => false

end

end Value

end Terse
