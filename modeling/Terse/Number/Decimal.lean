import Terse.Number.Digits

namespace Terse.Decimal

def placeLimit : Nat := 16

def divideOut (factor n : Nat) : Nat :=
  if _ : 2 ≤ factor ∧ 0 < n ∧ n % factor = 0 then divideOut factor (n / factor) else n
termination_by n
decreasing_by exact Nat.div_lt_self (by omega) (by omega)

/-- A reduced fraction has an ending expansion iff its denominator has no prime factors but two and
five. -/
def terminates (den : Nat) : Bool :=
  divideOut 5 (divideOut 2 den) = 1

/-- Long division: the places of `rest / den` after the point, at most `limit` of them, ending
where nothing is left to divide. -/
def places (den : Nat) : (limit : Nat) → (rest : Nat) → List Nat
  | 0, _ => []
  | limit + 1, rest =>
    if rest = 0 then [] else rest * 10 / den :: places den limit (rest * 10 % den)

def dropFinalZeros (ds : List Nat) : List Nat :=
  (ds.reverse.dropWhile (· = 0)).reverse

/-- The places of a magnitude that are written. An expansion that ends has at most as many as its
denominator has binary places, since it does not have either prime more often than that. -/
def fractionPlaces (q : Rat) : List Nat :=
  let limit := if terminates q.den then q.den.log2 else placeLimit
  dropFinalZeros (places q.den limit (q.num.natAbs % q.den))

/-- The characters of a number: sign, whole part, and the places after a point if there are any.
What is cut down to zero has no sign. -/
def chars (q : Rat) : List Char :=
  let whole := q.num.natAbs / q.den
  let fraction := fractionPlaces q
  let sign := if q.num < 0 && !(whole = 0 && fraction.isEmpty) then ['-'] else []
  let point := if fraction.isEmpty then [] else '.' :: fraction.map Nat.digitChar
  sign ++ (digits 10 whole).map Nat.digitChar ++ point

def text (q : Rat) : String :=
  String.ofList (chars q)

def digitValue (c : Char) : Nat :=
  c.toNat - '0'.toNat

/-- The number of a text without sign: digits with at most one point among or around them. -/
def unsigned? (cs : List Char) : Option Rat :=
  let whole := cs.takeWhile (· ≠ '.')
  let fraction := (cs.dropWhile (· ≠ '.')).drop 1
  if whole.isEmpty && fraction.isEmpty then none
  else if (whole ++ fraction).all Char.isDigit then
    some (mkRat (valueOf 10 ((whole ++ fraction).map digitValue)) (Nat.pow 10 fraction.length))
  else none

/-- The number of a text such as `-12.5`, `+3`, `.5` or `5.`. -/
def parse? : List Char → Option Rat
  | '-' :: cs => (unsigned? cs).map (- ·)
  | '+' :: cs => unsigned? cs
  | cs => unsigned? cs

/-- The number whose decimal digits are those of `q` in opposite order, with the sign of `q`. -/
def reversed? (q : Rat) : Option Rat :=
  let magnitude : Rat := if q.num < 0 then -q else q
  (parse? (chars magnitude).reverse).map fun r => if q.num < 0 then -r else r

end Terse.Decimal
