import Terse.Failure

namespace Terse

inductive LiteralKind where
  | plainText
  | compressedText
  | compressedNumber
  deriving DecidableEq

structure LiteralToken where
  kind : LiteralKind
  content : String
  deriving DecidableEq

structure Decoder where
  text : String → Except Failure String
  number : String → Except Failure Value

namespace Decoder

def unavailable : Decoder :=
  ⟨fun encoded => .error (.noTextCodec encoded), fun encoded => .error (.noNumberCodec encoded)⟩

def decode (decoder : Decoder) (token : LiteralToken) : Except Failure Value :=
  match token.kind with
  | .plainText => .ok (.text token.content)
  | .compressedText => (decoder.text token.content).map .text
  | .compressedNumber => decoder.number token.content

end Decoder

end Terse
