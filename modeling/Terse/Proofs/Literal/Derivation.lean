import Terse.Literal.Grammar

/-! The grammar of expressions, apart from any way to parse them. A phrase is derived from its tokens
within a number of nesting levels, and its expression is that of the derivation. What a phrase nests,
that is elements, the content of a group, the operand of a sign and the right operand of an operator,
has one level less. -/
namespace Terse

def Operator.mark : Operator → TokenKind
  | .add => .plus
  | .sub => .minus
  | .mul => .star
  | .div => .slash
  | .mod => .percent

def Sign.mark : Sign → TokenKind
  | .minus => .minus
  | .plus => .plus

inductive Phrase where
  | sum
  | product
  | unary
  | atom
  /-- An atom, or a number with a sign. -/
  | literal

/-- What a grammar admits as a whole, as an element and as the content of a group. -/
def Grammar.item : Grammar → Phrase
  | .literal => .literal
  | .arithmetic => .sum

def Grammar.phrases : Grammar → List Phrase
  | .literal => [.atom, .literal]
  | .arithmetic => [.atom, .unary, .product, .sum]

def Phrase.under : Phrase → Phrase
  | .sum => .product
  | .product => .unary
  | .unary | .atom | .literal => .atom

theorem Grammar.under_mem {grammar : Grammar} {phrase : Phrase} (mem : phrase ∈ grammar.phrases) :
    phrase.under ∈ grammar.phrases := by
  cases grammar <;> cases phrase <;> simp_all [Grammar.phrases, Phrase.under]

theorem Grammar.item_mem (grammar : Grammar) : grammar.item ∈ grammar.phrases := by
  cases grammar <;> simp [Grammar.item, Grammar.phrases]

structure Piece where
  tokens : List Token
  expr : Expr Span

structure Step where
  mark : Token
  op : Operator
  right : Piece

namespace Step

def tokens (step : Step) : List Token :=
  step.mark :: step.right.tokens

def apply (left : Expr Span) (step : Step) : Expr Span :=
  .binary (left.note.join step.right.expr.note) step.op left step.right.expr

end Step

/-- Pieces with commas between them, and perhaps one behind the last. -/
inductive Separated : List Piece → List Token → Prop where
  | none : Separated [] []
  | last (piece : Piece) : Separated [piece] piece.tokens
  | comma {piece : Piece} {comma : Token} {pieces : List Piece} {tokens : List Token} :
      comma.kind = .comma → Separated pieces tokens →
      Separated (piece :: pieces) (piece.tokens ++ comma :: tokens)

/-- The tokens make up this phrase, within this number of nesting levels, and it is read as this
expression. -/
inductive Derives (grammar : Grammar) : Phrase → (levels : Nat) → List Token → Expr Span → Prop where
  | number {levels : Nat} {token : Token} {digits : String} {q : Rat} :
      token.kind = .number digits → Decimal.parse? digits.toList = some q →
      Derives grammar .atom (levels + 1) [token] (.number token.span q)
  | text {levels : Nat} {token : Token} {content : String} : token.kind = .text content →
      Derives grammar .atom (levels + 1) [token] (.text token.span content)
  | trueWord {levels : Nat} {token : Token} : token.kind = .trueWord →
      Derives grammar .atom (levels + 1) [token] (.boolean token.span true)
  | falseWord {levels : Nat} {token : Token} : token.kind = .falseWord →
      Derives grammar .atom (levels + 1) [token] (.boolean token.span false)
  | list {levels : Nat} {opening closing : Token} {pieces : List Piece} {tokens : List Token} :
      opening.kind = .leftBracket → closing.kind = .rightBracket → Separated pieces tokens →
      (∀ piece ∈ pieces, Derives grammar grammar.item levels piece.tokens piece.expr) →
      Derives grammar .atom (levels + 1) (opening :: (tokens ++ [closing]))
        (.list (opening.span.join closing.span) (pieces.map Piece.expr))
  | unit {levels : Nat} {opening closing : Token} :
      opening.kind = .leftParen → closing.kind = .rightParen →
      Derives grammar .atom (levels + 1) [opening, closing]
        (.list (opening.span.join closing.span) [])
  | group {levels : Nat} {opening closing : Token} {tokens : List Token} {e : Expr Span} :
      opening.kind = .leftParen → closing.kind = .rightParen →
      Derives grammar grammar.item levels tokens e →
      Derives grammar .atom (levels + 1) (opening :: (tokens ++ [closing]))
        (e.withNote (opening.span.join closing.span))
  | tuple {levels : Nat} {opening comma closing : Token} {first : Piece} {pieces : List Piece}
      {tokens : List Token} :
      opening.kind = .leftParen → comma.kind = .comma → closing.kind = .rightParen →
      Derives grammar grammar.item levels first.tokens first.expr → Separated pieces tokens →
      (∀ piece ∈ pieces, Derives grammar grammar.item levels piece.tokens piece.expr) →
      Derives grammar .atom (levels + 1) (opening :: (first.tokens ++ comma :: tokens ++ [closing]))
        (.list (opening.span.join closing.span) (first.expr :: pieces.map Piece.expr))
  | unsigned {levels : Nat} {tokens : List Token} {e : Expr Span} :
      Derives grammar .atom levels tokens e → Derives grammar .unary levels tokens e
  | signed {levels : Nat} {mark : Token} {sign : Sign} {tokens : List Token} {e : Expr Span} :
      mark.kind = sign.mark → Derives grammar .unary levels tokens e →
      Derives grammar .unary (levels + 1) (mark :: tokens) (.signed (mark.span.join e.note) sign e)
  | product {levels : Nat} {first : Piece} {steps : List Step} :
      Derives grammar .unary (levels + 1) first.tokens first.expr →
      (∀ step ∈ steps, step.mark.kind = step.op.mark ∧ step.op ∈ [.mul, .div, .mod]) →
      (∀ step ∈ steps, Derives grammar .unary levels step.right.tokens step.right.expr) →
      Derives grammar .product (levels + 1) (first.tokens ++ steps.flatMap Step.tokens)
        (steps.foldl Step.apply first.expr)
  | sum {levels : Nat} {first : Piece} {steps : List Step} :
      Derives grammar .product (levels + 1) first.tokens first.expr →
      (∀ step ∈ steps, step.mark.kind = step.op.mark ∧ step.op ∈ [.add, .sub]) →
      (∀ step ∈ steps, Derives grammar .product levels step.right.tokens step.right.expr) →
      Derives grammar .sum (levels + 1) (first.tokens ++ steps.flatMap Step.tokens)
        (steps.foldl Step.apply first.expr)
  | literal {levels : Nat} {tokens : List Token} {e : Expr Span} :
      Derives grammar .atom levels tokens e → Derives grammar .literal levels tokens e
  | signedNumber {levels : Nat} {mark token : Token} {sign : Sign} {digits : String} {q : Rat} :
      mark.kind = sign.mark → token.kind = .number digits → Decimal.parse? digits.toList = some q →
      Derives grammar .literal (levels + 2) [mark, token]
        (.signed (mark.span.join token.span) sign (.number token.span q))

theorem Separated.forall_mem {P : Token → Prop} {pieces : List Piece} {tokens : List Token}
    (separated : Separated pieces tokens) (commas : ∀ token : Token, token.kind = .comma → P token)
    (inside : ∀ piece ∈ pieces, ∀ token ∈ piece.tokens, P token) : ∀ token ∈ tokens, P token := by
  induction separated with
  | none => simp
  | last piece => exact inside piece (by simp)
  | @comma piece comma pieces tokens kind _ ih =>
    intro token mem
    rcases List.mem_append.mp mem with mem | mem
    · exact inside piece (by simp) token mem
    · rcases List.mem_cons.mp mem with rfl | mem
      · exact commas token kind
      · exact ih (fun piece mem => inside piece (by simp [mem])) token mem

def front : List Token → TokenKind
  | [] => .eof
  | token :: _ => token.kind

@[simp] theorem front_cons (token : Token) (tokens : List Token) :
    front (token :: tokens) = token.kind :=
  rfl

theorem front_append {tokens : List Token} (found : front tokens ≠ .eof) (rest : List Token) :
    front (tokens ++ rest) = front tokens := by
  cases tokens with
  | nil => exact absurd rfl found
  | cons token tokens => rfl

def beforeEnd (tokens : List Token) : List Token :=
  tokens.takeWhile fun token => token.kind ≠ .eof

theorem beforeEnd_cons {token : Token} (inner : token.kind ≠ .eof) (tokens : List Token) :
    beforeEnd (token :: tokens) = token :: beforeEnd tokens := by
  simp [beforeEnd, inner]

theorem beforeEnd_append {used rest : List Token} (inner : ∀ token ∈ used, token.kind ≠ .eof)
    (ends : front rest = .eof) : beforeEnd (used ++ rest) = used := by
  have nothing : beforeEnd rest = [] := by
    cases rest with
    | nil => rfl
    | cons token rest => simp [beforeEnd, show token.kind = .eof from ends]
  rw [beforeEnd, List.takeWhile_append_of_pos (by simpa using inner), ← beforeEnd, nothing, List.append_nil]

theorem exists_end (tokens : List Token) :
    ∃ rest, tokens = beforeEnd tokens ++ rest ∧ front rest = .eof := by
  refine ⟨tokens.dropWhile fun token => token.kind ≠ .eof, by simp [beforeEnd], ?_⟩
  induction tokens with
  | nil => rfl
  | cons token tokens ih =>
    by_cases kind : token.kind = .eof
    · simp [kind]
    · simpa [kind] using ih

namespace Derives

variable {grammar : Grammar} {phrase : Phrase} {levels : Nat} {tokens : List Token} {e : Expr Span}

theorem front_not_closing (derives : Derives grammar phrase levels tokens e) :
    front tokens ∉ [TokenKind.rightBracket, .rightParen, .comma, .eof] := by
  induction derives with
  | number kind | text kind | trueWord kind | falseWord kind => simp [kind]
  | list opening | unit opening | group opening | tuple opening => simp [opening]
  | unsigned _ ih | literal _ ih => exact ih
  | @signed _ _ sign _ _ kind | @signedNumber _ _ _ sign _ _ kind => cases sign <;> simp [kind, Sign.mark]
  | product first _ _ ih | sum first _ _ ih =>
    rw [front_append]
    · exact ih
    · intro found
      simp [found] at ih

theorem front_ne_eof (derives : Derives grammar phrase levels tokens e) : front tokens ≠ .eof := by
  intro found
  simpa [found] using derives.front_not_closing

theorem length_pos (derives : Derives grammar phrase levels tokens e) : 0 < tokens.length := by
  cases tokens with
  | nil => exact absurd rfl derives.front_ne_eof
  | cons token tokens => simp

theorem kind_ne_eof (derives : Derives grammar phrase levels tokens e) :
    ∀ token ∈ tokens, token.kind ≠ .eof := by
  have commas (token : Token) (kind : token.kind = .comma) : token.kind ≠ .eof := by simp [kind]
  have marked {op : Operator} {token : Token} (kind : token.kind = op.mark) : token.kind ≠ .eof := by
    cases op <;> simp [kind, Operator.mark]
  induction derives with
  | number kind | text kind | trueWord kind | falseWord kind => simp [kind]
  | list opening closing separated _ ih =>
    simpa [opening, closing, or_imp, forall_and] using separated.forall_mem commas ih
  | unit opening closing => simp [opening, closing]
  | group opening closing _ ih => simpa [opening, closing, or_imp, forall_and] using ih
  | tuple opening comma closing _ separated _ ih ihs =>
    simpa [opening, comma, closing, or_imp, forall_and] using
      ⟨ih, separated.forall_mem commas ihs⟩
  | unsigned _ ih | literal _ ih => exact ih
  | @signed _ _ sign _ _ kind _ ih =>
    cases sign <;> simpa [kind, Sign.mark] using ih
  | product _ marks _ ih ihs | sum _ marks _ ih ihs =>
    simp only [List.mem_append, List.mem_flatMap, Step.tokens, List.mem_cons]
    rintro token (mem | ⟨step, mem, rfl | inside⟩)
    · exact ih token mem
    · exact marked (marks step mem).1
    · exact ihs step mem token inside
  | @signedNumber _ _ _ sign _ _ kind number => cases sign <;> simp [kind, number, Sign.mark]

theorem levels_pos (derives : Derives grammar phrase levels tokens e) : 0 < levels := by
  induction derives with
  | unsigned _ ih | literal _ ih => exact ih
  | _ => omega

theorem exists_levels (derives : Derives grammar phrase levels tokens e) :
    ∃ fewer, levels = fewer + 1 :=
  Nat.exists_eq_add_one_of_ne_zero (Nat.ne_of_gt derives.levels_pos)

theorem succ (derives : Derives grammar phrase levels tokens e) :
    Derives grammar phrase (levels + 1) tokens e := by
  induction derives with
  | number kind parses => exact .number kind parses
  | text kind => exact .text kind
  | trueWord kind => exact .trueWord kind
  | falseWord kind => exact .falseWord kind
  | list opening closing separated _ ih => exact .list opening closing separated ih
  | unit opening closing => exact .unit opening closing
  | group opening closing _ ih => exact .group opening closing ih
  | tuple opening comma closing _ separated _ ih ihs =>
    exact .tuple opening comma closing ih separated ihs
  | unsigned _ ih => exact .unsigned ih
  | signed kind _ ih => exact .signed kind ih
  | product _ marks _ ih ihs => exact .product ih marks ihs
  | sum _ marks _ ih ihs => exact .sum ih marks ihs
  | literal _ ih => exact .literal ih
  | signedNumber kind number parses => exact .signedNumber kind number parses

theorem asProduct (derives : Derives grammar .unary levels tokens e) :
    Derives grammar .product levels tokens e := by
  obtain ⟨levels, rfl⟩ := derives.exists_levels
  have product := @Derives.product _ _ ⟨tokens, e⟩ [] derives (by simp) (by simp)
  simpa using product

theorem asSum (derives : Derives grammar .product levels tokens e) :
    Derives grammar .sum levels tokens e := by
  obtain ⟨levels, rfl⟩ := derives.exists_levels
  have sum := @Derives.sum _ _ ⟨tokens, e⟩ [] derives (by simp) (by simp)
  simpa using sum

theorem asItem (derives : Derives grammar phrase levels tokens e) (mem : phrase ∈ grammar.phrases) :
    Derives grammar grammar.item levels tokens e := by
  match grammar, phrase with
  | .literal, .atom => exact .literal derives
  | .literal, .literal => exact derives
  | .arithmetic, .atom => exact derives.unsigned.asProduct.asSum
  | .arithmetic, .unary => exact derives.asProduct.asSum
  | .arithmetic, .product => exact derives.asSum
  | .arithmetic, .sum => exact derives

end Derives

end Terse
