import Terse.Input.Session
import Terse.Literal.Read
import Terse.Text.Blank

namespace Terse

/-- The value of an interactive line. Blanks around it do not count; a line that is no literal is
its own text, blanks included. -/
def evaluateLine (line : String) (literalsOnly : Bool) : Value :=
  let grammar : Grammar := if literalsOnly then .literal else .arithmetic
  match readLiteral grammar (Text.trim line) with
  | .ok v => v
  | .error _ => .text line

namespace Session

/-- What the reader is prompted with: one mark for each nesting level. -/
def prompt (session : Session) : String :=
  repeatText "> " session.flags.promptMarks

/-- The next value of the active source. An empty source is replaced by a line, and where there is
no line the value is zero. -/
def takeInput (session : Session) : Value × Session :=
  match session.active.next? with
  | some (value, source) => (value, session.withActive source)
  | none =>
    match session.reader.readLine session.prompt with
    | (some line, reader) =>
      (evaluateLine line session.flags.literalsOnly, { session with reader := reader })
    | (none, reader) => (.ofInt 0, { session with reader := reader })

end Session

/-- A stack of values, the top first. -/
abbrev Stack := List Value

namespace Stack

/-- The topmost values, and input where the stack has run out, in the order they are taken. -/
def takeValues : (count : Nat) → Stack → Session → List Value × Stack × Session
  | 0, stack, session => ([], stack, session)
  | count + 1, value :: stack, session =>
    let (values, stack, session) := takeValues count stack session
    (value :: values, stack, session)
  | count + 1, [], session =>
    let (value, session) := session.takeInput
    let (values, stack, session) := takeValues count [] session
    (value :: values, stack, session)

def bundle : List Value → Value
  | [value] => value
  | values => .list values

/-- Pops `count` values. What was taken goes back on the stack if popped values are retained, and
is delivered in opposite order if they are reversed. -/
def pop (count : Nat) (stack : Stack) (session : Session) : Value × Stack × Session :=
  let (values, stack, session) := takeValues count stack session
  let delivered := if session.flags.reversePopped then values.reverse else values
  let left := if session.flags.keepPopped then values ++ stack else stack
  (bundle delivered, left, session)

end Stack

end Terse
