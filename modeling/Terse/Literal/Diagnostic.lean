import Terse.Literal.Read

namespace Terse

/-- A failure as it is reported: the words, and the place unless it arose in evaluation. -/
inductive Diagnostic where
  | lexical (message : String) (line column : UInt32)
  | syntactic (message : String) (span : Span)
  | runtime (kind : FailureKind) (message : String)
  deriving DecidableEq

namespace Diagnostic

def ofLexFailure (e : LexFailure) : Diagnostic :=
  .lexical e.fault.message e.line e.column

def ofParseFailure (e : ParseFailure) : Diagnostic :=
  .syntactic e.fault.message e.span

def ofFailure (e : Failure) : Diagnostic :=
  .runtime e.kind e.message

def place? : Diagnostic → Option (UInt32 × UInt32)
  | lexical _ line column => some (line, column)
  | syntactic _ span => some (span.line, span.column)
  | runtime _ _ => none

def summary : Diagnostic → String
  | lexical message line column =>
    message ++ " at " ++ natText line.toNat ++ ":" ++ natText column.toNat
  | syntactic message span =>
    message ++ " at " ++ natText span.line.toNat ++ ":" ++ natText span.column.toNat
  | runtime kind message => kind.name ++ ": " ++ message

def atPlace (stage message : String) (line column : UInt32) : String :=
  stage ++ " error at line " ++ natText line.toNat ++ ", column " ++ natText column.toNat ++ ": " ++
    message

def full : Diagnostic → String
  | lexical message line column => atPlace "Lexical" message line column
  | syntactic message span => atPlace "Parse" message span.line span.column
  | runtime kind message => "Runtime error: " ++ kind.name ++ ": " ++ message

def splitLines (line : List Char) : List Char → List (List Char)
  | [] => [line.reverse]
  | c :: cs => if c = '\n' then line.reverse :: splitLines [] cs else splitLines (c :: line) cs

/-- A carriage return at the end belongs to the line ending. -/
def withoutReturn (line : List Char) : List Char :=
  if line.getLast? = some '\r' then line.dropLast else line

/-- The lines of a source. A line ends with a line feed, or a carriage return and a line feed; what
follows the last line feed is a line only if it is not empty, and keeps its carriage return. -/
def lines (source : List Char) : List (List Char) :=
  let parts := splitLines [] source
  let ended := parts.dropLast.map withoutReturn
  match parts.getLast? with
  | some [] | none => ended
  | some last => ended ++ [last]

/-- The failure in full, then the line it lies in, then a caret under its column. -/
def render (source : String) (d : Diagnostic) : String :=
  match d.place? with
  | none => d.full
  | some (line, column) =>
    let text := String.ofList ((lines source.toList)[line.toNat - 1]?.getD [])
    let pad := String.ofList (List.replicate (column.toNat - 1) ' ')
    d.full ++ "\n  " ++ text ++ "\n  " ++ pad ++ "^"

end Diagnostic

def ReadFailure.diagnostic : ReadFailure → Diagnostic
  | .lexical e => .ofLexFailure e
  | .syntactic e => .ofParseFailure e
  | .runtime e => .ofFailure e

end Terse
