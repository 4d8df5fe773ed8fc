import Terse.Proofs.Literal.Parsing

/-! The end of the tokens. Nothing is read behind an end marker, and running out of tokens is like coming
to one: two lists of tokens that differ only in how they end are parsed alike. The rounds of a loop are
counted by all tokens, those behind the marker included, so the loops are compared for any numbers of
rounds that suffice for the tokens before the end. -/
namespace Terse

/-- Two ways to end: there are no more tokens, or a marker and whatever follows it. -/
structure Endings where
  left : List Token
  right : List Token
  left_ends : front left = .eof
  right_ends : front right = .eof

def Endings.Marked (ends : Endings) : Prop :=
  ∃ mark tail tail', ends.left = mark :: tail ∧ ends.right = mark :: tail'

namespace Parser

variable {α β : Type} {ends : Endings} {least : Nat} {tokens : List Token}

/-- Parsing comes to the same before both endings: to one value, with the same tokens left and at least
so many taken, or to one fault, and this at one place if both end with the same marker. -/
inductive Alike (ends : Endings) (least : Nat) (tokens : List Token) : Parsed α → Parsed α → Prop where
  | ok {a : α} {rest : List Token} : (∀ token ∈ rest, token.kind ≠ .eof) →
      rest.length + least ≤ tokens.length →
      Alike ends least tokens (.ok a (rest ++ ends.left)) (.ok a (rest ++ ends.right))
  | error {e e' : ParseFailure} {rest rest' : List Token} : e.fault = e'.fault →
      (ends.Marked → e.span = e'.span) → Alike ends least tokens (.error e rest) (.error e' rest')

namespace Alike

theorem weaken {x y : Parsed α} (alike : Alike ends least tokens x y) : Alike ends 0 tokens x y := by
  cases alike with
  | ok inside shorter => exact .ok inside (by omega)
  | error fault span => exact .error fault span

theorem after {x y : Parsed α} {rest : List Token} (alike : Alike ends 0 rest x y)
    (shorter : rest.length + least ≤ tokens.length) : Alike ends least tokens x y := by
  cases alike with
  | ok inside shorter' => exact .ok inside (by omega)
  | error fault span => exact .error fault span

theorem andThen {p q : Parser α} {f g : α → Parser β}
    (first : Alike ends least tokens (p (tokens ++ ends.left)) (q (tokens ++ ends.right)))
    (next : ∀ a rest, (∀ token ∈ rest, token.kind ≠ .eof) → rest.length + least ≤ tokens.length →
      Alike ends 0 rest (f a (rest ++ ends.left)) (g a (rest ++ ends.right))) :
    Alike ends least tokens (Parser.andThen p f (tokens ++ ends.left))
      (Parser.andThen q g (tokens ++ ends.right)) := by
  rw [Parser.andThen, Parser.andThen]
  generalize p (tokens ++ ends.left) = x at first ⊢
  generalize q (tokens ++ ends.right) = y at first ⊢
  cases first with
  | @ok a rest inside shorter => exact (next a rest inside shorter).after shorter
  | error fault span => exact .error fault span

end Alike

def Agrees (ends : Endings) (least : Nat) (p q : Parser α) : Prop :=
  ∀ tokens, (∀ token ∈ tokens, token.kind ≠ .eof) →
    Alike ends least tokens (p (tokens ++ ends.left)) (q (tokens ++ ends.right))

theorem front_eq (ends : Endings) (tokens : List Token) :
    front (tokens ++ ends.left) = front (tokens ++ ends.right) := by
  cases tokens with
  | nil => exact ends.left_ends.trans ends.right_ends.symm
  | cons => rfl

theorem place_eq (marked : ends.Marked) (tokens : List Token) :
    place (tokens ++ ends.left) = place (tokens ++ ends.right) := by
  obtain ⟨mark, _, _, left, right⟩ := marked
  rw [left, right]
  cases tokens <;> rfl

namespace Agrees

variable {p q : Parser α} {f g : α → Parser β}

theorem done (a : α) : Agrees ends 0 (Parser.done a) (Parser.done a) :=
  fun _ inside => .ok inside (Nat.le_refl _)

theorem fail (fault : ParseFault) {span span' : Span} (same : ends.Marked → span = span') :
    Agrees ends least (Parser.fail fault span : Parser α) (Parser.fail fault span') :=
  fun _ _ => .error rfl same

theorem weaken (agrees : Agrees ends least p q) : Agrees ends 0 p q :=
  fun tokens inside => (agrees tokens inside).weaken

theorem andThen (first : Agrees ends least p q) (next : ∀ a, Agrees ends 0 (f a) (g a)) :
    Agrees ends least (Parser.andThen p f) (Parser.andThen q g) :=
  fun tokens inside => (first tokens inside).andThen fun a rest inside _ => next a rest inside

theorem ite {c : Prop} [Decidable c] {p' q' : Parser α} (yes : Agrees ends least p q)
    (no : Agrees ends least p' q') :
    Agrees ends least (if c then p else p') (if c then q else q') := by
  split
  · exact yes
  · exact no

theorem look {f g : TokenKind → Span → Parser α}
    (each : ∀ kind span span', (ends.Marked → span = span') →
      Agrees ends least (f kind span) (g kind span')) :
    Agrees ends least (Parser.look f) (Parser.look g) := by
  intro tokens inside
  rw [look_eq, look_eq, front_eq]
  exact each _ _ _ (fun marked => place_eq marked tokens) tokens inside

variable {setting setting' : Setting}

theorem take : Agrees ends 1 (Parser.take setting) (Parser.take setting') := by
  intro tokens inside
  cases tokens with
  | cons token rest =>
    obtain ⟨here, inside⟩ := List.forall_mem_cons.mp inside
    simp only [List.cons_append, Parser.take, if_neg here]
    exact .ok inside (Nat.le_refl _)
  | nil =>
    -- At the end the place is that of the marker, if there is one on both sides.
    have stops (setting : Setting) {tokens : List Token} (stop : front tokens = .eof) :
        ∃ span, Parser.take setting tokens = .error ⟨.unexpectedEnd, span⟩ tokens ∧
          ∀ mark tail, tokens = mark :: tail → span = mark.span := by
      cases tokens with
      | nil =>
        refine ⟨_, rfl, fun mark tail eq => ?_⟩
        cases eq
      | cons token rest =>
        refine ⟨token.span, if_pos stop, fun mark tail eq => ?_⟩
        cases eq
        rfl
    obtain ⟨span, left, at_mark⟩ := stops setting ends.left_ends
    obtain ⟨span', right, at_mark'⟩ := stops setting' ends.right_ends
    rw [List.nil_append, List.nil_append, left, right]
    refine .error rfl ?_
    rintro ⟨mark, tail, tail', here, there⟩
    exact (at_mark mark tail here).trans (at_mark' mark tail' there).symm

theorem expect (wanted : TokenKind) :
    Agrees ends 1 (Parser.expect setting wanted) (Parser.expect setting' wanted) :=
  look fun _ _ _ same => ite take (fail _ same)

theorem separator (close : TokenKind) :
    Agrees ends 0 (Parser.separator setting close) (Parser.separator setting' close) :=
  look fun _ _ _ _ => ite (done ()) ((expect .comma).weaken.andThen fun _ => done ())

section Level

variable {inner inner' : (floor : Nat) → Parser (Expr Span)}
  (deeper : ∀ floor, Agrees ends 1 (inner floor) (inner' floor))

theorem closed (close : TokenKind) : Agrees ends 1
    (Parser.andThen (Parser.expect setting close) fun token =>
      Parser.done (([] : List (Expr Span)), token.span))
    (Parser.andThen (Parser.expect setting' close) fun token =>
      Parser.done (([] : List (Expr Span)), token.span)) :=
  (expect close).andThen fun _ => done _

include deeper

theorem elementsUpTo (close : TokenKind) {rounds rounds' : Nat}
    (inside : ∀ token ∈ tokens, token.kind ≠ .eof) (enough : tokens.length ≤ rounds)
    (enough' : tokens.length ≤ rounds') :
    Alike ends 1 tokens
      (Parser.elementsUpTo setting inner close rounds (tokens ++ ends.left))
      (Parser.elementsUpTo setting' inner' close rounds' (tokens ++ ends.right)) := by
  induction rounds generalizing rounds' tokens with
  | zero =>
    obtain rfl := List.length_eq_zero_iff.mp (Nat.le_zero.mp enough)
    cases rounds' with
    | zero => exact closed close [] inside
    | succ rounds' =>
      rw [Parser.elementsUpTo, Parser.elementsUpTo, look_eq, List.nil_append, List.nil_append,
        if_pos (.inr ends.right_ends)]
      exact closed close [] inside
  | succ rounds ih =>
    cases rounds' with
    | zero =>
      obtain rfl := List.length_eq_zero_iff.mp (Nat.le_zero.mp enough')
      rw [Parser.elementsUpTo, Parser.elementsUpTo, look_eq, List.nil_append, List.nil_append,
        if_pos (.inr ends.left_ends)]
      exact closed close [] inside
    | succ rounds' =>
      rw [Parser.elementsUpTo, Parser.elementsUpTo, look_eq, look_eq, front_eq]
      split
      · exact closed close tokens inside
      · -- The element takes a token, so one round less suffices for what is left.
        refine (deeper 0 tokens inside).andThen fun first rest inside shorter => ?_
        refine (separator close rest inside).andThen fun _ rest inside shorter' => ?_
        exact ((ih inside (by omega) (by omega)).weaken).andThen fun _ _ inside _ => done _ _ inside

theorem elements (close : TokenKind) :
    Agrees ends 1 (Parser.elements setting inner close) (Parser.elements setting' inner' close) :=
  fun _ inside => elementsUpTo deeper close inside (by simp) (by simp)

theorem parenthesized (opening : Span) :
    Agrees ends 1 (Parser.parenthesized setting inner opening)
      (Parser.parenthesized setting' inner' opening) := by
  refine look fun _ _ _ _ => ite (take.andThen fun _ => done _) ?_
  refine (deeper 0).andThen fun first => look fun _ _ _ _ => ?_
  refine ite (take.weaken.andThen fun _ => done _) ?_
  refine (expect .comma).weaken.andThen fun _ => ?_
  exact (elements deeper .rightParen).weaken.andThen fun _ => done _

variable (same : setting.grammar = setting'.grammar)

include same

theorem signedOperand (sign : Sign) (span : Span) :
    Agrees ends 1 (Parser.signedOperand setting inner sign span)
      (Parser.signedOperand setting' inner' sign span) := by
  refine look fun _ _ _ _ => ?_
  rw [same]
  exact ite (fail _ fun _ => rfl) ((deeper Sign.precedence).andThen fun _ => done _)

theorem operandFrom (token : Token) :
    Agrees ends 0 (Parser.operandFrom setting inner token)
      (Parser.operandFrom setting' inner' token) := by
  unfold Parser.operandFrom
  split
  · split
    · exact done _
    · exact fail _ fun _ => rfl
  · exact done _
  · exact done _
  · exact done _
  · exact (signedOperand deeper same .minus token.span).weaken
  · exact (signedOperand deeper same .plus token.span).weaken
  · exact (elements deeper .rightBracket).weaken.andThen fun _ => done _
  · exact (parenthesized deeper token.span).weaken
  · exact fail _ fun _ => rfl

theorem chainFrom (floor : Nat) {rounds rounds' : Nat}
    (inside : ∀ token ∈ tokens, token.kind ≠ .eof) (enough : tokens.length ≤ rounds)
    (enough' : tokens.length ≤ rounds') (left : Expr Span) :
    Alike ends 0 tokens
      (Parser.chainFrom setting inner floor rounds left (tokens ++ ends.left))
      (Parser.chainFrom setting' inner' floor rounds' left (tokens ++ ends.right)) := by
  -- Where no tokens are left before the end, the chain ends in whatever round it is.
  have ended (rounds rounds' : Nat) (left : Expr Span) : Alike ends 0 []
      (Parser.chainFrom setting inner floor rounds left ([] ++ ends.left))
      (Parser.chainFrom setting' inner' floor rounds' left ([] ++ ends.right)) := by
    rw [List.nil_append, List.nil_append,
      chainFrom_stop (stops_of_front (by simp [ends.left_ends])),
      chainFrom_stop (stops_of_front (by simp [ends.right_ends]))]
    exact done left [] nofun
  induction rounds generalizing rounds' tokens left with
  | zero =>
    obtain rfl := List.length_eq_zero_iff.mp (Nat.le_zero.mp enough)
    exact ended 0 rounds' left
  | succ rounds ih =>
    cases rounds' with
    | zero =>
      obtain rfl := List.length_eq_zero_iff.mp (Nat.le_zero.mp enough')
      exact ended (rounds + 1) 0 left
    | succ rounds' =>
      rw [Parser.chainFrom, Parser.chainFrom, look_eq, look_eq, front_eq, same]
      cases operatorIn setting'.grammar (front (tokens ++ ends.right)) with
      | none => exact done left tokens inside
      | some op =>
        by_cases loose : op.precedence ≤ floor
        · simp only [if_pos loose]
          exact done left tokens inside
        · simp only [if_neg loose]
          refine Alike.weaken ((take tokens inside).andThen fun _ rest inside shorter => ?_)
          refine Alike.weaken ((deeper op.precedence rest inside).andThen
            fun right rest inside shorter' => ?_)
          exact ih inside (by omega) (by omega) _

theorem chain (floor : Nat) :
    Agrees ends 1 (Parser.chain setting inner floor) (Parser.chain setting' inner' floor) := by
  have operand : Agrees ends 1 (Parser.operand setting inner) (Parser.operand setting' inner') :=
    take.andThen fun token => operandFrom deeper same token
  intro tokens inside
  refine (operand tokens inside).andThen fun left rest inside _ => ?_
  exact chainFrom deeper same floor inside (by simp) (by simp) left

end Level

variable (same : setting.grammar = setting'.grammar)

include same

theorem expressionWithin (levels floor : Nat) :
    Agrees ends 1 (Parser.expressionWithin setting levels floor)
      (Parser.expressionWithin setting' levels floor) := by
  induction levels generalizing floor with
  | zero => exact look fun _ _ _ here => fail _ here
  | succ levels ih => exact chain ih same floor

theorem whole : Agrees ends 1 (Parser.whole setting) (Parser.whole setting') :=
  (expressionWithin same nestingLimit 0).andThen fun e =>
    look fun _ _ _ here => ite (done e) (fail _ here)

end Agrees

end Parser

variable {tokens : List Token}

/-- Tokens with two endings are parsed with the same expression or the same fault, and even the same
failure if they end with the same marker. -/
theorem parse_alike (grammar : Grammar) (inside : ∀ token ∈ tokens, token.kind ≠ .eof)
    (ends : Endings) :
    (parse grammar (tokens ++ ends.left)).mapError ParseFailure.fault =
        (parse grammar (tokens ++ ends.right)).mapError ParseFailure.fault ∧
      (ends.Marked → parse grammar (tokens ++ ends.left) = parse grammar (tokens ++ ends.right)) := by
  have agrees : Parser.Agrees ends 1 (Parser.whole (.ofTokens grammar (tokens ++ ends.left)))
      (Parser.whole (.ofTokens grammar (tokens ++ ends.right))) := .whole rfl
  have alike := agrees tokens inside
  rw [parse, parse]
  generalize Parser.whole _ (tokens ++ ends.left) = x at alike ⊢
  generalize Parser.whole _ (tokens ++ ends.right) = y at alike ⊢
  cases alike with
  | ok => exact ⟨rfl, fun _ => rfl⟩
  | @error e e' _ _ fault span =>
    refine ⟨congrArg Except.error fault, fun marked => congrArg Except.error ?_⟩
    obtain ⟨found, here⟩ := e
    obtain ⟨found', there⟩ := e'
    obtain rfl : found = found' := fault
    obtain rfl : here = there := span marked
    rfl

/-- Whether the tokens run out or an end marker stands behind them, they are parsed with the same
expression or fail with the same message; and what stands behind the marker changes nothing at all. -/
theorem end_mark_immaterial (grammar : Grammar) {mark : Token}
    (inside : ∀ token ∈ tokens, token.kind ≠ .eof) (ends : mark.kind = .eof) (tail : List Token) :
    (parse grammar tokens).mapError (fun e => e.fault.message) =
        (parse grammar (tokens ++ [mark])).mapError (fun e => e.fault.message) ∧
      parse grammar (tokens ++ [mark]) = parse grammar (tokens ++ mark :: tail) := by
  constructor
  · have same := (parse_alike grammar inside ⟨[], [mark], rfl, ends⟩).1
    rw [List.append_nil] at same
    have message (x : Except ParseFailure (Expr Span)) : x.mapError (fun e => e.fault.message) =
        (x.mapError ParseFailure.fault).mapError ParseFault.message := by
      cases x <;> rfl
    rw [message, message, same]
  · exact (parse_alike grammar inside ⟨[mark], mark :: tail, ends, ends⟩).2
      ⟨mark, [], tail, rfl, rfl⟩

/-- A list that breaks off behind its first element, with the closing bracket only behind the marker. -/
theorem end_mark_immaterial_list :
    let tokens : List Token := [⟨.leftBracket, ⟨0, 1, 1, 1⟩⟩, ⟨.number "7", ⟨1, 2, 1, 2⟩⟩]
    let mark : Token := ⟨.eof, ⟨2, 2, 1, 3⟩⟩
    let tail : List Token := [⟨.rightBracket, ⟨2, 3, 1, 3⟩⟩]
    (∀ token ∈ tokens, token.kind ≠ .eof) ∧ mark.kind = .eof ∧
      (parse .literal tokens).mapError (fun e => e.fault.message) =
        (parse .literal (tokens ++ [mark])).mapError (fun e => e.fault.message) ∧
      parse .literal (tokens ++ [mark]) = parse .literal (tokens ++ mark :: tail) := by
  intro tokens mark tail
  have inside : ∀ token ∈ tokens, token.kind ≠ .eof := by decide
  exact ⟨inside, rfl, end_mark_immaterial .literal inside rfl tail⟩

end Terse
