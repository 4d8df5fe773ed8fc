import Terse.Failure
import Terse.Literal.Expr

namespace Terse

/-- The longest text, in bytes, or list that a repetition may build: two to the power 24. -/
def repeatLimit : Nat := 16777216

/-- How often a sequence of length `unit` is repeated. A negative count is zero, and of nothing
any count is admissible. -/
def repeatCount (count : Rat) (unit : Nat) : Except Failure Nat :=
  if count.den ≠ 1 then .error (.fractionalCount count)
  else if count.num < 0 ∨ unit = 0 then .ok 0
  else if count.num.toNat * unit ≤ repeatLimit then .ok count.num.toNat
  else .error (.hugeCount count)

def repeatText (s : String) (n : Nat) : String :=
  Nat.repeat (· ++ s) n ""

def repeatItems (items : List Value) (n : Nat) : List Value :=
  Nat.repeat (items ++ ·) n []

namespace Operator

/-- Arithmetic on rationals. The remainder has the sign of the divisor. -/
def onNumbers (op : Operator) (a b : Rat) : Except Failure Rat :=
  match op with
  | .add => .ok (a + b)
  | .sub => .ok (a - b)
  | .mul => .ok (a * b)
  | .div => if b = 0 then .error .divisionByZero else .ok (a / b)
  | .mod => if b = 0 then .error .divisionByZero else .ok (a - b * (a / b).floor)

/-- An operator on two values: numbers, two texts or lists to be joined, or one of these and a
count in either order. -/
def onValues (op : Operator) (left right : Value) : Except Failure Value :=
  match op, left, right with
  | op, .number a, .number b => (op.onNumbers a b).map .number
  | .add, .text s, .text t => .ok (.text (s ++ t))
  | .add, .list xs, .list ys => .ok (.list (xs ++ ys))
  | .mul, .text s, .number n | .mul, .number n, .text s =>
    (repeatCount n s.utf8ByteSize).map fun count => .text (repeatText s count)
  | .mul, .list xs, .number n | .mul, .number n, .list xs =>
    (repeatCount n xs.length).map fun count => .list (repeatItems xs count)
  | op, left, right => .error (.badOperands op left.type right.type)

end Operator

def Sign.onValue : Sign → Value → Except Failure Value
  | .minus, .number q => .ok (.number (-q))
  | .plus, .number q => .ok (.number q)
  | sign, value => .error (.badOperand sign value.type)

namespace Expr

variable {α : Type}

mutual

/-- The value of an expression, operands from left to right. Truth values are one and zero. -/
def evaluate : Expr α → Except Failure Value
  | number _ q => .ok (.number q)
  | text _ content => .ok (.text content)
  | boolean _ b => .ok (.ofBool b)
  | list _ items => (evaluateAll items).map .list
  | signed _ sign operand => do sign.onValue (← evaluate operand)
  | binary _ op left right => do
    let a ← evaluate left
    let b ← evaluate right
    op.onValues a b

def evaluateAll : List (Expr α) → Except Failure (List Value)
  | [] => .ok []
  | e :: es => do
    let v ← evaluate e
    let vs ← evaluateAll es
    return v :: vs

end

end Expr

end Terse
