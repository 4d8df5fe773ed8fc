import Terse.Lazy.Store

namespace Terse

namespace Value

mutual

/-- The written form, given that of lazy sequences. Text stands in quotes as it is. -/
def displayWith (ofLazy : Handle → String) : Value → String
  | .number q => ratText q
  | .text s => "\"" ++ s ++ "\""
  | .list items => "[" ++ String.intercalate ", " (displayItems ofLazy items) ++ "]"
  | .lazy handle => ofLazy handle
  | .function f => f.display

def displayItems (ofLazy : Handle → String) : List Value → List String
  | [] => []
  | item :: items => displayWith ofLazy item :: displayItems ofLazy items

end

end Value

namespace Store

def displayBuffer (buffer : Buffer) (ofValue : Value → String) : String :=
  let more := if buffer.state.isDone then [] else ["..."]
  "[" ++ String.intercalate ", " (buffer.realized.toList.map ofValue ++ more) ++ "]"

def displayWithin (store : Store) : (depth : Nat) → Value → String
  | 0 => Value.displayWith fun _ => "[...]"
  | depth + 1 =>
    Value.displayWith fun handle =>
      displayBuffer (store.buffer handle.buffer) (displayWithin store depth)

/-- The written form of a value. Sequences that do not contain themselves are nested no deeper than
there are buffers. -/
def display (store : Store) (value : Value) : String :=
  store.displayWithin store.buffers.size value

def plainText (store : Store) : Value → String
  | .text s => s
  | value => store.display value

def quotedText (s : String) : String :=
  let escaped := s.toList.flatMap fun c => if c = '"' ∨ c = '\\' then ['\\', c] else [c]
  "\"" ++ String.ofList escaped ++ "\""

/-- A handle in the form for diagnosis: what is realized, its position, and what comes next. -/
def describeHandle (store : Store) (handle : Handle) : String :=
  let buffer := store.buffer handle.buffer
  "LazySequence \x7b realized: " ++ natText buffer.realized.size ++
    ", cursor: " ++ natText handle.cursor ++
    ", state: " ++ quotedText buffer.state.describe ++ " \x7d"

end Store

end Terse
