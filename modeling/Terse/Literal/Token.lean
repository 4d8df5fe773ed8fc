namespace Terse

/-- A place in a source: the bytes before it, and its line and column, both counted from one and in
32 bits, so that behind the last count comes zero. A column is one code point. -/
structure Position where
  offset : Nat
  line : UInt32
  column : UInt32
  deriving DecidableEq

namespace Position

def start : Position := ⟨0, 1, 1⟩

def after (p : Position) (c : Char) : Position :=
  if c = '\n' then ⟨p.offset + c.utf8Size, p.line + 1, 1⟩
  else ⟨p.offset + c.utf8Size, p.line, p.column + 1⟩

def afterAll (p : Position) (cs : List Char) : Position :=
  cs.foldl after p

end Position

/-- A stretch of a source: its bytes `start` up to `stop`, and where it begins. -/
structure Span where
  start : Nat
  stop : Nat
  line : UInt32
  column : UInt32
  deriving DecidableEq

namespace Span

def origin : Span := ⟨0, 0, 1, 1⟩

def between (first last : Position) : Span :=
  ⟨first.offset, last.offset, first.line, first.column⟩

def join (first last : Span) : Span :=
  { first with stop := last.stop }

end Span

inductive TokenKind where
  | trueWord
  | falseWord
  /-- The digits and the point of a number, separators left out. -/
  | number (digits : String)
  | text (content : String)
  | plus
  | minus
  | star
  | slash
  | percent
  | leftParen
  | rightParen
  | leftBracket
  | rightBracket
  | comma
  | eof
  deriving DecidableEq

namespace TokenKind

def display : TokenKind → String
  | trueWord => "True"
  | falseWord => "False"
  | number digits => digits
  | text content => "\"" ++ content ++ "\""
  | plus => "+"
  | minus => "-"
  | star => "*"
  | slash => "/"
  | percent => "%"
  | leftParen => "("
  | rightParen => ")"
  | leftBracket => "["
  | rightBracket => "]"
  | comma => ","
  | eof => "end of input"

/-- A token as messages name it: in quotes, the end of input apart. -/
def describe (kind : TokenKind) : String :=
  if kind = eof then kind.display else "'" ++ kind.display ++ "'"

end TokenKind

structure Token where
  kind : TokenKind
  span : Span
  deriving DecidableEq

inductive LexFault where
  | unexpectedCharacter (c : Char)
  | unknownName (name : String)
  | unterminatedText
  | invalidEscape (c : Char)
  deriving DecidableEq

def LexFault.message : LexFault → String
  | .unexpectedCharacter c => "Unexpected character: '" ++ c.toString ++ "'"
  | .unknownName name => "Unknown name: " ++ name
  | .unterminatedText => "Unterminated string literal"
  | .invalidEscape c => "Invalid escape sequence: \\" ++ c.toString

/-- An escape is reported at the character it does not admit, all else where the token begins. -/
def LexFault.place (begin stop : Position) : LexFault → Position
  | .invalidEscape _ => stop
  | _ => begin

structure LexFailure where
  fault : LexFault
  line : UInt32
  column : UInt32
  deriving DecidableEq

end Terse
