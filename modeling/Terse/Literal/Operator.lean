namespace Terse

inductive Sign where
  | minus
  | plus
  deriving DecidableEq

inductive Operator where
  | add
  | sub
  | mul
  | div
  | mod
  deriving DecidableEq

def Sign.symbol : Sign → String
  | .minus => "-"
  | .plus => "+"

def Operator.symbol : Operator → String
  | .add => "+"
  | .sub => "-"
  | .mul => "*"
  | .div => "/"
  | .mod => "%"

/-- Products bind more tightly than sums; a chain with floor `f` takes the operators above `f`. -/
def Operator.precedence : Operator → Nat
  | .add | .sub => 1
  | .mul | .div | .mod => 2

/-- The operand of a sign takes no operator at all. -/
def Sign.precedence : Nat := 3

end Terse
