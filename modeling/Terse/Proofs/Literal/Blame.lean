import Terse.Literal.Grammar

namespace Terse

/-- The rest is what is left when some tokens have been taken from the front, none of them an end marker. -/
def Remains (tokens rest : List Token) : Prop :=
  ∃ used, tokens = used ++ rest ∧ ∀ token ∈ used, token.kind ≠ .eof

theorem Remains.refl (tokens : List Token) : Remains tokens tokens :=
  ⟨[], rfl, by simp⟩

theorem Remains.trans {tokens between rest : List Token} (first : Remains tokens between)
    (second : Remains between rest) : Remains tokens rest := by
  obtain ⟨used, rfl, inner⟩ := first
  obtain ⟨more, rfl, inner'⟩ := second
  refine ⟨used ++ more, by simp, fun token mem => ?_⟩
  rcases List.mem_append.mp mem with mem | mem
  · exact inner token mem
  · exact inner' token mem

theorem Remains.subset {tokens rest : List Token} (remains : Remains tokens rest) : rest ⊆ tokens := by
  obtain ⟨used, rfl, _⟩ := remains
  exact List.subset_append_right used rest

/-- Any fault may be met with here, but for a number that is none. -/
def Admits (F : ParseFailure → Prop) (span : Span) : Prop :=
  ∀ fault, (∀ digits, fault ≠ .badNumber digits) → F ⟨fault, span⟩

/-- What may be blamed on tokens with property `P` has property `F`: most faults are met with at any token,
at the beginning, or where the tokens run out, but digits that are no number only where they stand. -/
structure Blames (setting : Setting) (P : Token → Prop) (F : ParseFailure → Prop) : Prop where
  origin : Admits F .origin
  finish : Admits F setting.finish
  token : ∀ token, P token → Admits F token.span
  number : ∀ token digits, P token → token.kind = .number digits →
    Decimal.parse? digits.toList = none → F ⟨.badNumber digits, token.span⟩

namespace Parser

variable {α β : Type} {P : Token → Prop} {F : ParseFailure → Prop} {Q : α → Prop} {R : β → Prop}
  {setting : Setting}

/-- What is made of the tokens has property `Q`, a failure has property `F`, and what is left remains of
them. -/
def Fits (F : ParseFailure → Prop) (Q : α → Prop) (tokens : List Token) : Parsed α → Prop
  | .ok a rest => Q a ∧ Remains tokens rest
  | .error e rest => F e ∧ Remains tokens rest

def Reports (P : Token → Prop) (F : ParseFailure → Prop) (Q : α → Prop) (p : Parser α) : Prop :=
  ∀ tokens, (∀ token ∈ tokens, P token) → Fits F Q tokens (p tokens)

namespace Reports

theorem done {a : α} (made : Q a) : Reports P F Q (Parser.done a) :=
  fun tokens _ => ⟨made, .refl tokens⟩

theorem fail {fault : ParseFault} {span : Span} (here : F ⟨fault, span⟩) :
    Reports P F Q (Parser.fail fault span) :=
  fun tokens _ => ⟨here, .refl tokens⟩

theorem andThen {p : Parser α} {f : α → Parser β} (first : Reports P F Q p)
    (next : ∀ a, Q a → Reports P F R (f a)) : Reports P F R (Parser.andThen p f) := by
  intro tokens each
  have begun := first tokens each
  rw [Parser.andThen]
  cases parsed : p tokens with
  | error e between =>
    rw [parsed] at begun
    exact begun
  | ok a between =>
    rw [parsed] at begun
    obtain ⟨made, left⟩ := begun
    have more := next a made between fun token mem => each token (left.subset mem)
    change Fits F R tokens (f a between)
    cases result : f a between with
    | ok b rest =>
      rw [result] at more
      exact ⟨more.1, left.trans more.2⟩
    | error e rest =>
      rw [result] at more
      exact ⟨more.1, left.trans more.2⟩

theorem ite {c : Prop} [Decidable c] {p q : Parser α} (yes : Reports P F Q p) (no : Reports P F Q q) :
    Reports P F Q (if c then p else q) := by
  split
  · exact yes
  · exact no

section Grammar

variable (blames : Blames setting P F)

include blames

theorem look {f : TokenKind → Span → Parser α}
    (each : ∀ kind span, Admits F span → Reports P F Q (f kind span)) :
    Reports P F Q (Parser.look f) := by
  intro tokens here
  cases tokens with
  | nil => exact each .eof .origin blames.origin [] here
  | cons token rest =>
    exact each token.kind token.span (blames.token token (here token (List.mem_cons_self ..))) _ here

theorem take : Reports P F P (Parser.take setting) := by
  intro tokens each
  cases tokens with
  | nil => exact ⟨blames.finish _ nofun, .refl []⟩
  | cons token rest =>
    have here := each token (List.mem_cons_self ..)
    by_cases ends : token.kind = .eof
    · rw [Parser.take, if_pos ends]
      exact ⟨blames.token token here _ nofun, .refl _⟩
    · rw [Parser.take, if_neg ends]
      exact ⟨here, [token], rfl, by simpa using ends⟩

theorem expect (wanted : TokenKind) : Reports P F P (Parser.expect setting wanted) :=
  look blames fun _ _ here => .ite (take blames) (.fail (here _ nofun))

theorem separator (close : TokenKind) :
    Reports P F (fun _ => True) (Parser.separator setting close) :=
  look blames fun _ _ _ => .ite (.done trivial) ((expect blames .comma).andThen fun _ _ => .done trivial)

section Level

variable {inner : (floor : Nat) → Parser (Expr Span)}
  (deeper : ∀ floor, Reports P F (fun _ => True) (inner floor))

include deeper

theorem elementsUpTo (close : TokenKind) (rounds : Nat) :
    Reports P F (fun _ => True) (Parser.elementsUpTo setting inner close rounds) := by
  have closed : Reports P F (fun _ => True)
      (Parser.andThen (Parser.expect setting close) fun token =>
        Parser.done (([] : List (Expr Span)), token.span)) :=
    (expect blames close).andThen fun _ _ => .done trivial
  induction rounds with
  | zero => exact closed
  | succ rounds ih =>
    refine look blames fun _ _ _ => .ite closed ?_
    refine (deeper 0).andThen fun first _ => ?_
    refine (separator blames close).andThen fun _ _ => ?_
    exact ih.andThen fun others _ => .done trivial

theorem elements (close : TokenKind) :
    Reports P F (fun _ => True) (Parser.elements setting inner close) :=
  fun tokens => elementsUpTo blames deeper close tokens.length tokens

theorem parenthesized (opening : Span) :
    Reports P F (fun _ => True) (Parser.parenthesized setting inner opening) := by
  refine look blames fun _ _ _ => .ite ((take blames).andThen fun _ _ => .done trivial) ?_
  refine (deeper 0).andThen fun first _ => look blames fun _ _ _ => ?_
  refine .ite ((take blames).andThen fun _ _ => .done trivial) ?_
  refine (expect blames .comma).andThen fun _ _ => ?_
  exact (elements blames deeper .rightParen).andThen fun _ _ => .done trivial

theorem signedOperand (sign : Sign) {span : Span} (here : Admits F span) :
    Reports P F (fun _ => True) (Parser.signedOperand setting inner sign span) :=
  look blames fun _ _ _ => .ite (.fail (here _ nofun))
    ((deeper Sign.precedence).andThen fun _ _ => .done trivial)

theorem operandFrom {token : Token} (holds : P token) :
    Reports P F (fun _ => True) (Parser.operandFrom setting inner token) := by
  have here : Admits F token.span := blames.token token holds
  unfold Parser.operandFrom
  split
  · split
    · exact .done trivial
    · exact .fail (blames.number token _ holds ‹_› ‹_›)
  · exact .done trivial
  · exact .done trivial
  · exact .done trivial
  · exact signedOperand blames deeper .minus here
  · exact signedOperand blames deeper .plus here
  · exact (elements blames deeper .rightBracket).andThen fun _ _ => .done trivial
  · exact parenthesized blames deeper token.span
  · exact .fail (here _ nofun)

theorem chainFrom (floor rounds : Nat) (left : Expr Span) :
    Reports P F (fun _ => True) (Parser.chainFrom setting inner floor rounds left) := by
  induction rounds generalizing left with
  | zero => exact .done trivial
  | succ rounds ih =>
    refine look blames fun found _ _ => ?_
    split
    · exact .done trivial
    · rename_i op _
      refine .ite (.done trivial) ((take blames).andThen fun _ _ => ?_)
      exact (deeper op.precedence).andThen fun _ _ => ih _

theorem chain (floor : Nat) : Reports P F (fun _ => True) (Parser.chain setting inner floor) := by
  have operand : Reports P F (fun _ => True) (Parser.operand setting inner) :=
    (take blames).andThen fun _ holds => operandFrom blames deeper holds
  exact operand.andThen fun left _ tokens =>
    chainFrom blames deeper floor tokens.length left tokens

end Level

theorem expressionWithin (levels floor : Nat) :
    Reports P F (fun _ => True) (Parser.expressionWithin setting levels floor) := by
  induction levels generalizing floor with
  | zero => exact look blames fun _ _ here => .fail (here _ nofun)
  | succ levels ih => exact chain blames ih floor

theorem whole : Reports P F (fun _ => True) (Parser.whole setting) :=
  (expressionWithin blames nestingLimit 0).andThen fun _ _ =>
    look blames fun _ _ here => .ite (.done trivial) (.fail (here _ nofun))

end Grammar

end Reports

end Parser

theorem Blames.of_parse {P : Token → Prop} {F : ParseFailure → Prop} {grammar : Grammar}
    {tokens : List Token} {e : ParseFailure} (blames : Blames (.ofTokens grammar tokens) P F)
    (each : ∀ token ∈ tokens, P token) (failed : parse grammar tokens = .error e) : F e := by
  have reported := Parser.Reports.whole blames tokens each
  unfold parse at failed
  split at failed
  · simp at failed
  · rename_i error rest parsed
    rw [parsed] at reported
    obtain rfl := Except.error.inj failed
    exact reported.1

theorem parse_error_span {P : Span → Prop} {grammar : Grammar} {tokens : List Token} {e : ParseFailure}
    (origin : P .origin) (each : ∀ token ∈ tokens, P token.span)
    (failed : parse grammar tokens = .error e) : P e.span := by
  have finish : P (Setting.ofTokens grammar tokens).finish := by
    unfold Setting.ofTokens
    cases last : tokens.getLast? with
    | none => exact origin
    | some token => exact each token (List.mem_of_getLast? last)
  have blames : Blames (.ofTokens grammar tokens) (fun token => P token.span) (fun e => P e.span) := {
    origin := fun _ _ => origin
    finish := fun _ _ => finish
    token := fun _ here _ _ => here
    number := fun _ _ here _ _ => here }
  exact blames.of_parse each failed

end Terse
