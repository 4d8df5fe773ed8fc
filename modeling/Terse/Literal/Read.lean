import Terse.Literal.Evaluate
import Terse.Literal.Lexeme
import Terse.Literal.Grammar

namespace Terse

inductive ReadFailure where
  | lexical (e : LexFailure)
  | syntactic (e : ParseFailure)
  | runtime (e : Failure)
  deriving DecidableEq

def readExpr (grammar : Grammar) (source : String) : Except ReadFailure (Expr Span) :=
  match tokenize source with
  | .error e => .error (.lexical e)
  | .ok tokens =>
    match parse grammar tokens with
    | .error e => .error (.syntactic e)
    | .ok e => .ok e

def readLiteral (grammar : Grammar) (source : String) : Except ReadFailure Value :=
  match readExpr grammar source with
  | .error e => .error e
  | .ok e =>
    match e.evaluate with
    | .error e => .error (.runtime e)
    | .ok v => .ok v

end Terse
