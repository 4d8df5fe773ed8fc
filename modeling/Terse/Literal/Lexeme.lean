import Terse.Literal.Token
import Terse.Text.Blank

/-! Cutting a source into tokens. A lexeme is a run of characters at the head of what is left to
read; a cursor moves over it and keeps count of its position. Reading goes on after a fault from
the place where the fault left the cursor. -/
namespace Terse

structure Lexeme where
  taken : List Char
  outcome : Except LexFault TokenKind

namespace Lexeme

def isNumeralChar (c : Char) : Bool :=
  c.isDigit || c = '_'

def isWordChar (c : Char) : Bool :=
  c.isAlphanum || c = '_'

/-- The characters of a number: digits and separators, with at most one point. -/
def numeral (cs : List Char) : List Char :=
  let whole := cs.takeWhile isNumeralChar
  match cs.dropWhile isNumeralChar with
  | '.' :: rest => whole ++ '.' :: rest.takeWhile isNumeralChar
  | _ => whole

def ofNumeral (cs : List Char) : Lexeme :=
  let taken := numeral cs
  ⟨taken, .ok (.number (String.ofList (taken.filter (· ≠ '_'))))⟩

def ofWord (cs : List Char) : Lexeme :=
  let taken := cs.takeWhile isWordChar
  let word := String.ofList taken
  ⟨taken,
    if word = "True" then .ok .trueWord
    else if word = "False" then .ok .falseWord
    else .error (.unknownName word)⟩

def unescape? : Char → Option Char
  | 'n' => some '\n'
  | 't' => some '\t'
  | '\\' => some '\\'
  | '"' => some '"'
  | '\'' => some '\''
  | _ => none

/-- The content of a quoted text up to its closing quote, with the characters taken for it. -/
def quoted (quote : Char) : List Char → List Char × Except LexFault (List Char)
  | [] => ([], .error .unterminatedText)
  | ['\\'] => (['\\'], .error .unterminatedText)
  | '\\' :: c :: cs =>
    match unescape? c with
    | some d =>
      let (taken, content) := quoted quote cs
      ('\\' :: c :: taken, content.map (d :: ·))
    | none => (['\\'], .error (.invalidEscape c))
  | c :: cs =>
    if c = quote then ([c], .ok [])
    else
      let (taken, content) := quoted quote cs
      (c :: taken, content.map (c :: ·))

def ofQuoted (quote : Char) (cs : List Char) : Lexeme :=
  let (taken, content) := quoted quote cs
  ⟨quote :: taken, content.map fun s => .text (String.ofList s)⟩

def mark? : Char → Option TokenKind
  | '(' => some .leftParen
  | ')' => some .rightParen
  | '[' => some .leftBracket
  | ']' => some .rightBracket
  | ',' => some .comma
  | '+' => some .plus
  | '-' => some .minus
  | '*' => some .star
  | '/' => some .slash
  | '%' => some .percent
  | _ => none

/-- A point begins a number only directly before a digit. -/
def startsNumeral (c : Char) (cs : List Char) : Bool :=
  c.isDigit || (c = '.' && (cs.head?.any Char.isDigit))

/-- The lexeme that begins with `c`. A character that begins none is not taken. -/
def read (c : Char) (cs : List Char) : Lexeme :=
  match mark? c with
  | some kind => ⟨[c], .ok kind⟩
  | none =>
    if c = '"' ∨ c = '\'' then ofQuoted c cs
    else if startsNumeral c cs then ofNumeral (c :: cs)
    else if c.isAlpha then ofWord (c :: cs)
    else ⟨[], .error (.unexpectedCharacter c)⟩

theorem numeral_ne_nil {c : Char} {cs : List Char} (h : startsNumeral c cs = true) :
    numeral (c :: cs) ≠ [] := by
  by_cases digit : isNumeralChar c = true
  · simp only [numeral, List.takeWhile_cons, digit, if_true]
    split <;> simp
  · have point : c = '.' := by
      simp only [startsNumeral, Bool.or_eq_true, Bool.and_eq_true, decide_eq_true_eq] at h
      simp only [isNumeralChar, Bool.or_eq_true, decide_eq_true_eq, not_or] at digit
      rcases h with h | h
      · exact absurd h digit.1
      · exact h.1
    subst point
    simp [numeral, isNumeralChar]

theorem taken_ne_nil {c : Char} {cs : List Char} {kind : TokenKind}
    (h : (read c cs).outcome = .ok kind) : (read c cs).taken ≠ [] := by
  unfold read at h ⊢
  split
  · simp
  · rename_i none
    simp only [none] at h
    split
    · simp [ofQuoted]
    · rename_i quote
      simp only [quote, if_false] at h
      split
      · exact numeral_ne_nil ‹_›
      · rename_i numeral
        simp only [numeral] at h
        split
        · rename_i alpha
          have word : isWordChar c = true := by simp [isWordChar, Char.isAlphanum, alpha]
          simp [ofWord, word]
        · rename_i alpha
          simp [alpha] at h

end Lexeme

structure Cursor where
  rest : List Char
  position : Position
  deriving DecidableEq

namespace Cursor

def ofText (source : String) : Cursor :=
  ⟨source.toList, .start⟩

/-- Moves over characters that stand at the head of the rest. -/
def advance (cursor : Cursor) (taken : List Char) : Cursor :=
  ⟨cursor.rest.drop taken.length, cursor.position.afterAll taken⟩

def skipBlanks (cursor : Cursor) : Cursor :=
  ⟨cursor.rest.dropWhile Text.isBlank,
    cursor.position.afterAll (cursor.rest.takeWhile Text.isBlank)⟩

/-- The next token, or the end of input again and again, and the cursor behind it. -/
def next (cursor : Cursor) : Except LexFailure Token × Cursor :=
  let begin := cursor.skipBlanks
  match begin.rest with
  | [] => (.ok ⟨.eof, .between begin.position begin.position⟩, begin)
  | c :: cs =>
    let lexeme := Lexeme.read c cs
    let stop := begin.advance lexeme.taken
    match lexeme.outcome with
    | .ok kind => (.ok ⟨kind, .between begin.position stop.position⟩, stop)
    | .error fault =>
      let place := fault.place begin.position stop.position
      (.error ⟨fault, place.line, place.column⟩, stop)

theorem length_dropWhile_le {α : Type} (p : α → Bool) (l : List α) :
    (l.dropWhile p).length ≤ l.length :=
  (List.dropWhile_sublist p).length_le

theorem next_shortens {cursor after : Cursor} {token : Token}
    (h : cursor.next = (.ok token, after)) (inner : token.kind ≠ .eof) :
    after.rest.length < cursor.rest.length := by
  have skipped : cursor.skipBlanks.rest.length ≤ cursor.rest.length :=
    length_dropWhile_le _ _
  simp only [next] at h
  split at h
  · simp only [Prod.mk.injEq, Except.ok.injEq] at h
    exact absurd (by rw [← h.1]) inner
  · rename_i c cs begins
    split at h
    · rename_i kind outcome
      have nonempty := List.length_pos_iff.mpr (Lexeme.taken_ne_nil outcome)
      simp only [Prod.mk.injEq] at h
      rw [← h.2]
      simp only [advance, List.length_drop, begins, List.length_cons] at skipped ⊢
      omega
    · simp at h

/-- The tokens up to the end of input, which is the last of them, or the first fault. -/
def tokenize (cursor : Cursor) : Except LexFailure (List Token) × Cursor :=
  match _ : cursor.next with
  | (.error error, after) => (.error error, after)
  | (.ok token, after) =>
    if _ : token.kind = .eof then (.ok [token], after)
    else
      let (tokens, final) := tokenize after
      (tokens.map (token :: ·), final)
termination_by cursor.rest.length
decreasing_by exact next_shortens ‹_› ‹_›

end Cursor

def tokenize (source : String) : Except LexFailure (List Token) :=
  (Cursor.ofText source).tokenize.1

end Terse
