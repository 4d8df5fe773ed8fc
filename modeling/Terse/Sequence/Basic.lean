import Terse.Machine.Action

namespace Terse

variable {σ : Type}

namespace Handle

def get (handle : Handle) (index : Nat) : Action σ (Option Value) := do
  let reached ← Action.realize handle.buffer (.upTo (index + 1))
  if reached then
    let store ← Action.store
    return (store.buffer handle.buffer).realized[index]?
  else return none

/-- The number of elements, all of which are realized. -/
def length (handle : Handle) : Action σ Nat := do
  let _ ← Action.realize handle.buffer .all
  let store ← Action.store
  return (store.buffer handle.buffer).realized.size

def force (handle : Handle) : Action σ (List Value) := do
  let _ ← Action.realize handle.buffer .all
  let store ← Action.store
  return store.realized handle

/-- The element at the handle's own position, and the handle moved behind it. At the end the handle
stays where it is. -/
def next (handle : Handle) : Action σ (Option Value × Handle) := do
  let item ← handle.get handle.cursor
  if item.isSome then return (item, { handle with cursor := handle.cursor + 1 })
  else return (item, handle)

end Handle

namespace Sequence

def get (sequence : Sequence) (index : Nat) : Action σ (Option Value) :=
  match sequence with
  | .items values => return values[index]?
  | .lazy handle => handle.get index

def length (sequence : Sequence) : Action σ Nat :=
  match sequence with
  | .items values => return values.length
  | .lazy handle => handle.length

def isEmpty (sequence : Sequence) : Action σ Bool := do
  let first ← sequence.get 0
  return first.isNone

def force (sequence : Sequence) : Action σ (List Value) :=
  match sequence with
  | .items values => return values
  | .lazy handle => handle.force

end Sequence

namespace Value

/-- Numbers but zero, texts and sequences but empty ones, and all functions are truthy. -/
def truth : Value → Action σ Bool
  | number q => return q ≠ 0
  | text s => return !s.isEmpty
  | list items => return !items.isEmpty
  | lazy handle => do
    let first ← handle.get 0
    return first.isSome
  | function _ => return true

/-- Equality of sequences element by element, however they are stored, and of all else as it is. -/
def equals (left right : Value) : Action σ Bool :=
  match left.sequence?, right.sequence? with
  | some a, some b => Action.request (.compare a b)
  | _, _ => return left.same right

end Value

namespace Sequence

def search (needle : Value) : List Value → Action σ Bool
  | [] => return false
  | item :: rest => do
    if ← item.equals needle then return true
    else search needle rest

/-- Membership; a lazy sequence is realized only up to the first match. -/
def contains (sequence : Sequence) (needle : Value) : Action σ Bool :=
  match sequence with
  | .items values => search needle values
  | .lazy handle => Action.request (.search handle needle)

def compareAt (left right : Sequence) (index : Nat) : Action σ (Option Bool) := do
  let x ← left.get index
  let y ← right.get index
  match x, y with
  | none, none => return some true
  | some x, some y => if ← x.equals y then return none else return some false
  | _, _ => return some false

end Sequence

def Handle.searchAt (handle : Handle) (needle : Value) (index : Nat) :
    Action σ (Option Bool) := do
  match ← handle.get index with
  | none => return some false
  | some item => if ← item.equals needle then return some true else return none

structure Walk where
  sequence : Sequence
  index : Nat

def Sequence.walk (sequence : Sequence) : Walk := ⟨sequence, 0⟩

def Walk.next (walk : Walk) : Action σ (Option Value × Walk) := do
  let item ← walk.sequence.get walk.index
  if item.isSome then return (item, { walk with index := walk.index + 1 })
  else return (item, walk)

end Terse
