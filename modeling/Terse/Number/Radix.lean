import Terse.Failure

namespace Terse.Radix

/-- The digits of `v` in base `base`, most significant first. A negative number has the digits of
its magnitude, each negated. -/
def ofInt (v base : Int) : Except Failure (List Int) :=
  if base < 2 then .error (.smallBase base)
  else .ok ((digits base.toNat v.natAbs).map fun (d : Nat) => if v < 0 then -(d : Int) else d)

def toInt (ds : List Int) (base : Int) : Int :=
  ds.foldl (fun acc d => acc * base + d) 0

/-- The number of a word, a character counting its first position in the alphabet. -/
def decode (word alphabet : String) : Except Failure Nat :=
  let symbols := alphabet.toList
  if symbols.isEmpty then .error .emptyAlphabet
  else
    word.toList.foldlM (fun acc c =>
      match symbols.idxOf? c with
      | some position => .ok (acc * symbols.length + position)
      | none => .error (.foreignSymbol c alphabet)) 0

def symbolOf (symbols : List Char) (digit : Nat) : Except Failure Char :=
  match symbols[digit]? with
  | some symbol => .ok symbol
  | none => .error (.digitOutOfRange digit)

def encode (v : Int) (alphabet : String) : Except Failure String :=
  let symbols := alphabet.toList
  if v < 0 then .error (.negativeValue v)
  else if symbols.isEmpty then .error .emptyAlphabet
  else if symbols.length = 1 then
    if v = 0 then .ok alphabet else .error (.singleSymbol v)
  else do
    let word ← (digits symbols.length v.natAbs).mapM (symbolOf symbols)
    return String.ofList word

end Terse.Radix
