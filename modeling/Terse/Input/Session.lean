import Terse.Input.Cycle
import Terse.Value.Basic

namespace Terse

/-- Switches that coercion and input obey. -/
structure Flags where
  /-- A number is taken as a range and not as its digits. -/
  numbersAreRanges : Bool := false
  rangeFrom : Int := 1
  /-- Added to the number to get the end of the range, which is not in it. -/
  rangeReach : Int := 1
  /-- Popped values stay on the stack. -/
  keepPopped : Bool := false
  /-- Popped values are delivered in opposite order. -/
  reversePopped : Bool := false
  /-- Interactive lines are read as literals only. -/
  literalsOnly : Bool := false
  /-- The nesting level that the prompt shows. -/
  promptMarks : Nat := 1
  /-- Input comes from the outermost source also within a function. -/
  readTop : Bool := false
  deriving DecidableEq

namespace Flags

def withLetter (flags : Flags) : Char → Flags
  | 'R' => { flags with numbersAreRanges := true }
  | 'r' => { flags with reversePopped := true }
  | 'M' => { flags with rangeFrom := 0 }
  | 'm' => { flags with rangeReach := 0 }
  | 'Ṁ' => { flags with rangeFrom := 0, rangeReach := 0 }
  | _ => flags

def ofLetters (letters : String) : Flags :=
  letters.toList.foldl withLetter {}

end Flags

/-- A reader of interactive lines. What it answers to a prompt may depend on the prompts before, and
where there is no line now there may be one later. -/
structure LineReader where
  answer : (shown : List String) → (prompt : String) → Option String
  shown : List String

namespace LineReader

/-- The next line, if there is one; the prompt is shown either way. -/
def readLine (reader : LineReader) (prompt : String) : Option String × LineReader :=
  (reader.answer reader.shown prompt, { reader with shown := reader.shown ++ [prompt] })

/-- The reader that keeps a state and answers by it. -/
def ofState {α : Type} (step : α → String → Option String × α) (state : α) : LineReader where
  answer shown prompt :=
    (step (shown.foldl (fun state prompt => (step state prompt).2) state) prompt).1
  shown := []

def closed : LineReader :=
  ofState (fun state _ => (none, state)) ()

def scripted (lines : List String) : LineReader :=
  ofState (fun lines _ => (lines.head?, lines.tail)) lines

/-- A terminal, with what is to come from it: an interrupt is no line, and does not end them. -/
def terminal (answers : Nat → Option String) : LineReader :=
  ofState (fun answers _ => (answers 0, fun k => answers (k + 1))) answers

end LineReader

structure Session where
  flags : Flags
  top : Cycle Value
  /-- The arguments of the function being evaluated. -/
  current : Option (Cycle Value)
  reader : LineReader

namespace Session

def initial (inputs : List Value) (flags : Flags) (reader : LineReader) : Session :=
  ⟨flags, .ofList inputs, none, reader⟩

/-- The source of the function being evaluated; outside functions, the outermost one. -/
def innermost (session : Session) : Cycle Value :=
  session.current.getD session.top

def inCall (session : Session) : Bool :=
  session.current.isSome

def readsTop (session : Session) : Bool :=
  session.flags.readTop || !session.inCall

def active (session : Session) : Cycle Value :=
  if session.flags.readTop then session.top else session.innermost

def withActive (session : Session) (source : Cycle Value) : Session :=
  if session.readsTop then { session with top := source }
  else { session with current := some source }

/-- Makes the arguments of a function the current source. What was current before is to be given
back to `restore`. -/
def enter (session : Session) (args : List Value) : Option (Cycle Value) × Session :=
  (session.current, { session with current := some (.ofList args) })

def restore (session : Session) (previous : Option (Cycle Value)) : Session :=
  { session with current := previous }

end Session

end Terse
