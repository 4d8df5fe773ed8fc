import Terse.Literal.Stepwise
import Terse.Proofs.Literal.Blame
import Terse.Proofs.Literal.Parsing

/-! Parsers that go on after failures. On a state that lasts, all parsing comes to an end and does what
the parser on the tokens left does: the position says which tokens these are, and the open levels are
those that the parser has no longer to give. So each call leaves as many levels open as it found, whatever
came of it, and moves forward over tokens before the end only. -/
namespace Terse

variable {α β : Type} {grammar : Grammar} {tokens rest : List Token} {depth : Nat}

def Parsed.outcome : Parsed α → Except ParseFailure α
  | .ok a _ => .ok a
  | .error e _ => .error e

def Parsed.behind : Parsed α → List Token
  | .ok _ rest => rest
  | .error _ rest => rest

namespace ParseState

def leaving (grammar : Grammar) (tokens : List Token) (depth : Nat) (rest : List Token) : ParseState :=
  ⟨grammar, tokens, tokens.length - rest.length, depth⟩

theorem start_eq_leaving (grammar : Grammar) (tokens : List Token) :
    start grammar tokens = leaving grammar tokens 0 tokens := by
  rw [start, leaving, Nat.sub_self]

theorem next?_leaving (left : rest <:+ tokens) :
    (leaving grammar tokens depth rest).next? = rest.head? := by
  obtain ⟨used, rfl⟩ := left
  simp [next?, leaving, List.head?_eq_getElem?, List.getElem?_append_right]

theorem place_leaving (left : rest <:+ tokens) :
    (leaving grammar tokens depth rest).place = Parser.place rest := by
  rw [place, next?_leaving left]
  cases rest <;> rfl

theorem isAt_leaving (left : rest <:+ tokens) {kind : TokenKind} (inner : kind ≠ .eof) :
    (leaving grammar tokens depth rest).isAt kind = true ↔ front rest = kind := by
  rw [isAt, next?_leaving left]
  cases rest with
  | nil => exact ⟨nofun, fun eq => absurd eq.symm inner⟩
  | cons => exact decide_eq_true_iff

theorem isAtEnd_leaving (left : rest <:+ tokens) :
    (leaving grammar tokens depth rest).isAtEnd = true ↔ front rest = .eof := by
  rw [isAtEnd, next?_leaving left]
  cases rest with
  | nil => exact iff_of_true rfl rfl
  | cons => exact decide_eq_true_iff

theorem kind_leaving (left : rest <:+ tokens) :
    ((leaving grammar tokens depth rest).next?.map Token.kind).getD .eof = front rest := by
  rw [next?_leaving left]
  cases rest <;> rfl

theorem operator_leaving (left : rest <:+ tokens) :
    ((leaving grammar tokens depth rest).next?.bind fun token =>
      Parser.operatorIn (leaving grammar tokens depth rest).grammar token.kind) =
        Parser.operatorIn grammar (front rest) := by
  rw [next?_leaving left]
  cases rest with
  | nil => cases grammar <;> rfl
  | cons => rfl

theorem isNumber_leaving (left : rest <:+ tokens) :
    ((leaving grammar tokens depth rest).next?.any fun token => Parser.isNumber token.kind) =
      Parser.isNumber (front rest) := by
  rw [next?_leaving left]
  cases rest <;> rfl

end ParseState

open ParseState

theorem Setting.grammar_ofTokens : (Setting.ofTokens grammar tokens).grammar = grammar :=
  rfl

namespace Parser

theorem andThen_assoc {γ : Type} (p : Parser α) (f : α → Parser β) (g : β → Parser γ) :
    andThen (andThen p f) g = andThen p fun a => andThen (f a) g := by
  funext tokens
  simp only [andThen]
  cases p tokens <;> rfl

theorem done_andThen (a : α) (f : α → Parser β) : andThen (done a) f = f a :=
  rfl

theorem andThen_done (p : Parser α) : andThen p done = p := by
  funext tokens
  simp only [andThen]
  cases p tokens <;> rfl

theorem expressionWithin_shortens {setting : Setting} {levels floor : Nat} {e : Expr Span}
    (parsed : expressionWithin setting levels floor tokens = .ok e rest) :
    rest.length < tokens.length := by
  obtain ⟨used, rfl, derives, _⟩ := (expressionWithin_exact setting levels ..).mp parsed
  have := derives.length_pos
  rw [List.length_append]
  omega

end Parser

namespace Parsing

theorem bind_apply (step : Parsing α) (next : α → Parsing β) (state : ParseState) :
    (step >>= next) state = (step state).bind fun
      | (.ok a, between) => next a between
      | (.error e, between) => some (.error e, between) := by
  change (step state).bind _ = _
  congr 1
  funext ⟨result, between⟩
  cases result <;> rfl

/-- On the state in which these tokens are left, parsing comes to an end as the parser does, for all large
numbers of steps alike, and the same levels are open behind it. -/
structure Settles (grammar : Grammar) (tokens : List Token) (depth : Nat) (rest : List Token)
    (parsing : (steps : Nat) → Parsing α) (parsed : Parsed α) : Prop where
  later : parsed.behind <:+ rest
  ends : ∃ enough, ∀ steps, enough ≤ steps → parsing steps (leaving grammar tokens depth rest) =
    some (parsed.outcome, leaving grammar tokens depth parsed.behind)

namespace Settles

variable {parsing : (steps : Nat) → Parsing α} {parsed : Parsed α}

theorem done (a : α) : Settles grammar tokens depth rest (fun _ => pure a) (.ok a rest) :=
  ⟨List.suffix_refl _, 0, fun _ _ => rfl⟩

theorem fail (fault : ParseFault) (span : Span) :
    Settles grammar tokens depth rest (fun _ => (Parsing.fail fault span : Parsing α))
      (.error ⟨fault, span⟩ rest) :=
  ⟨List.suffix_refl _, 0, fun _ _ => rfl⟩

theorem call (settles : Settles grammar tokens depth rest (fun steps => parsing (steps + 1)) parsed) :
    Settles grammar tokens depth rest parsing parsed := by
  obtain ⟨later, enough, ends⟩ := settles
  refine ⟨later, enough + 1, fun steps large => ?_⟩
  obtain ⟨steps, rfl⟩ := Nat.exists_eq_add_of_le' (Nat.le_of_add_left_le large)
  exact ends steps (by omega)

theorem read {next : (steps : Nat) → ParseState → Parsing α}
    (settles : Settles grammar tokens depth rest
      (fun steps => next steps (leaving grammar tokens depth rest)) parsed) :
    Settles grammar tokens depth rest (fun steps => get >>= next steps) parsed :=
  ⟨settles.later, settles.ends⟩

theorem bind {parser : Parser α} {next : (steps : Nat) → α → Parsing β} {further : α → Parser β}
    (first : Settles grammar tokens depth rest parsing (parser rest))
    (then_ : ∀ a behind, parser rest = .ok a behind → behind <:+ rest →
      Settles grammar tokens depth behind (fun steps => next steps a) (further a behind)) :
    Settles grammar tokens depth rest (fun steps => parsing steps >>= next steps)
      (Parser.andThen parser further rest) := by
  obtain ⟨later, enough, ends⟩ := first
  rw [Parser.andThen]
  cases parsed : parser rest with
  | error e behind =>
    rw [parsed] at later ends
    refine ⟨later, enough, fun steps large => ?_⟩
    rw [bind_apply, ends steps large]
    rfl
  | ok a behind =>
    rw [parsed] at later ends
    obtain ⟨later', enough', ends'⟩ := then_ a behind parsed later
    refine ⟨later'.trans later, max enough enough', fun steps large => ?_⟩
    rw [bind_apply, ends steps (by omega)]
    exact ends' steps (by omega)

theorem ite {c d : Prop} [Decidable c] [Decidable d] (same : c ↔ d) {p q : (steps : Nat) → Parsing α}
    {p' q' : Parser α} (yes : d → Settles grammar tokens depth rest p (p' rest))
    (no : ¬ d → Settles grammar tokens depth rest q (q' rest)) :
    Settles grammar tokens depth rest (fun steps => if c then p steps else q steps)
      ((if d then p' else q') rest) := by
  by_cases taken : d
  · simp only [if_pos taken, if_pos (same.mpr taken)]
    exact yes taken
  · simp only [if_neg taken, if_neg (taken ∘ same.mp)]
    exact no taken

end Settles

/-- Given steps enough, parsing does on every state what the parser does on the tokens left. -/
def Carries (grammar : Grammar) (tokens : List Token) (depth : Nat) (parsing : (steps : Nat) → Parsing α)
    (parser : Parser α) : Prop :=
  ∀ rest, rest <:+ tokens → Settles grammar tokens depth rest parsing (parser rest)

namespace Carries

theorem done (a : α) : Carries grammar tokens depth (fun _ => pure a) (Parser.done a) :=
  fun _ _ => .done a

theorem fail (fault : ParseFault) (span : Span) :
    Carries grammar tokens depth (fun _ => (Parsing.fail fault span : Parsing α))
      (Parser.fail fault span) :=
  fun _ _ => .fail fault span

theorem bind {parsing : (steps : Nat) → Parsing α} {parser : Parser α}
    {next : (steps : Nat) → α → Parsing β} {further : α → Parser β}
    (first : Carries grammar tokens depth parsing parser)
    (then_ : ∀ a, Carries grammar tokens depth (fun steps => next steps a) (further a)) :
    Carries grammar tokens depth (fun steps => parsing steps >>= next steps)
      (Parser.andThen parser further) :=
  fun rest left => (first rest left).bind fun a behind _ later => then_ a behind (later.trans left)

theorem take : Carries grammar tokens depth (fun _ => Parsing.take)
    (Parser.take (.ofTokens grammar tokens)) := by
  intro rest left
  refine .read ?_
  rw [next?_leaving left]
  cases rest with
  | nil => exact .fail _ _
  | cons token rest =>
    by_cases stop : token.kind = .eof
    · simp only [List.head?_cons, Parser.take, if_pos stop]
      exact .fail _ _
    · simp only [List.head?_cons, Parser.take, if_neg stop]
      have moved : tokens.length - (token :: rest).length + 1 = tokens.length - rest.length := by
        have := left.length_le
        rw [List.length_cons] at this ⊢
        omega
      refine ⟨List.suffix_cons token rest, 0, fun _ _ => ?_⟩
      rw [Parsed.behind, leaving, leaving, ← moved]
      rfl

theorem expect {wanted : TokenKind} (inner : wanted ≠ .eof) :
    Carries grammar tokens depth (fun _ => Parsing.expect wanted)
      (Parser.expect (.ofTokens grammar tokens) wanted) := by
  intro rest left
  rw [Parser.expect, Parser.look_eq]
  refine .read (.ite (isAt_leaving left inner) (fun _ => take rest left) fun _ => ?_)
  rw [kind_leaving left, place_leaving left]
  exact .fail _ _

theorem separator {close : TokenKind} (inner : close ≠ .eof) :
    Carries grammar tokens depth (fun _ => Parsing.separator close)
      (Parser.separator (.ofTokens grammar tokens) close) := by
  intro rest left
  rw [Parser.separator, Parser.look_eq]
  refine .read (.ite (isAt_leaving left inner) (fun _ => .done ()) fun _ => ?_)
  exact (expect (by decide)).bind (fun _ => done ()) rest left

theorem number (digits : String) (span : Span) :
    Carries grammar tokens depth (fun _ => Parsing.number digits span)
      (match Decimal.parse? digits.toList with
        | some q => Parser.done (.number span q)
        | none => Parser.fail (.badNumber digits) span) := by
  simp only [Parsing.number]
  cases Decimal.parse? digits.toList with
  | some q => exact done _
  | none => exact fail _ _

section Level

variable {inner : (floor : Nat) → Parser (Expr Span)}
  (deeper : ∀ floor, Carries grammar tokens depth (fun steps => Parsing.level steps floor) (inner floor))

include deeper

theorem signed (sign : Sign) (span : Span) :
    Carries grammar tokens depth (fun steps => Parsing.signed steps sign span)
      (Parser.signedOperand (.ofTokens grammar tokens) inner sign span) := by
  intro rest left
  rw [Parser.signedOperand, Parser.look_eq]
  refine .call (.read (.ite ?_ (fun _ => .fail _ _) fun _ => ?_))
  · rw [isNumber_leaving left]
    exact Iff.rfl
  · exact (deeper Sign.precedence).bind (fun _ => done _) rest left

theorem chainFrom (floor : Nat) {rounds : Nat} (left : rest <:+ tokens)
    (enough : rest.length ≤ rounds) (first : Expr Span) :
    Settles grammar tokens depth rest (fun steps => Parsing.chainFrom steps floor first)
      (Parser.chainFrom (.ofTokens grammar tokens) inner floor rounds first rest) := by
  induction rounds generalizing rest first with
  | zero =>
    obtain rfl := List.length_eq_zero_iff.mp (Nat.le_zero.mp enough)
    refine .call (.read ?_)
    rw [operator_leaving left]
    cases grammar <;> exact .done first
  | succ rounds ih =>
    refine .call (.read ?_)
    rw [operator_leaving left, Parser.chainFrom, Parser.look_eq, Setting.grammar_ofTokens]
    cases Parser.operatorIn grammar (front rest) with
    | none => exact .done first
    | some op =>
      refine .ite Iff.rfl (fun _ => .done first) fun _ => ?_
      refine (take rest left).bind fun token behind taken later => ?_
      obtain ⟨rfl, _⟩ := Parser.take_ok.mp taken
      refine (deeper op.precedence behind (later.trans left)).bind fun right further _ later' => ?_
      have := later'.length_le
      rw [List.length_cons] at enough
      exact ih (later'.trans (later.trans left)) (by omega) _

variable (shortens : ∀ {floor rest e behind}, inner floor rest = .ok e behind →
  behind.length < rest.length)

include shortens

theorem elementsFrom {close : TokenKind} (closing : close ≠ .eof) {rounds : Nat}
    (left : rest <:+ tokens) (enough : rest.length ≤ rounds) (items : List (Expr Span)) :
    Settles grammar tokens depth rest (fun steps => Parsing.elementsFrom steps close items)
      (Parser.andThen (Parser.elementsUpTo (.ofTokens grammar tokens) inner close rounds)
        (fun others => Parser.done (items ++ others.1, others.2)) rest) := by
  induction rounds generalizing rest items with
  | zero =>
    obtain rfl := List.length_eq_zero_iff.mp (Nat.le_zero.mp enough)
    refine .call (.read ?_)
    have ended : ((leaving grammar tokens depth []).isAt close ||
        (leaving grammar tokens depth []).isAtEnd) = true := by
      rw [(isAtEnd_leaving left).mpr rfl, Bool.or_true]
    simp only [if_pos ended, Parser.elementsUpTo, Parser.andThen_assoc, Parser.done_andThen,
      List.append_nil]
    exact (expect closing).bind (fun _ => done _) [] left
  | succ rounds ih =>
    have ended : ((leaving grammar tokens depth rest).isAt close ||
        (leaving grammar tokens depth rest).isAtEnd) = true ↔ front rest = close ∨ front rest = .eof := by
      rw [Bool.or_eq_true, isAt_leaving left closing, isAtEnd_leaving left]
    rw [Parser.andThen, Parser.elementsUpTo, Parser.look_eq, ← Parser.andThen,
      apply_ite (Parser.andThen · _), Parser.andThen_assoc, Parser.andThen_assoc]
    refine .call (.read (.ite ended (fun _ => ?_) fun _ => ?_))
    · simp only [Parser.done_andThen, List.append_nil]
      exact (expect closing).bind (fun _ => done _) rest left
    · refine (deeper 0 rest left).bind fun item behind parsed later => ?_
      rw [Parser.andThen_assoc]
      refine (separator closing behind (later.trans left)).bind fun _ further _ later' => ?_
      have := shortens parsed
      have := later'.length_le
      have others := ih (later'.trans (later.trans left)) (by omega) (items ++ [item])
      simpa only [Parser.andThen_assoc, Parser.done_andThen, List.append_assoc,
        List.singleton_append] using others

theorem elements {close : TokenKind} (closing : close ≠ .eof) :
    Carries grammar tokens depth (fun steps => Parsing.elementsFrom steps close [])
      (Parser.elements (.ofTokens grammar tokens) inner close) := by
  intro rest left
  have same := elementsFrom deeper shortens closing left (Nat.le_refl rest.length) []
  rwa [show (fun others : List (Expr Span) × Span => Parser.done ([] ++ others.1, others.2)) =
    Parser.done from rfl, Parser.andThen_done] at same

theorem parenthesized (opening : Span) :
    Carries grammar tokens depth (fun steps => Parsing.parenthesized steps opening)
      (Parser.parenthesized (.ofTokens grammar tokens) inner opening) := by
  intro rest left
  have mark : TokenKind.rightParen ≠ .eof := by decide
  rw [Parser.parenthesized, Parser.look_eq]
  refine .call (.read (.ite (isAt_leaving left mark) (fun _ => ?_) fun _ => ?_))
  · exact take.bind (fun _ => done _) rest left
  · refine (deeper 0 rest left).bind fun first behind _ later => ?_
    have left := later.trans left
    rw [Parser.look_eq]
    refine .read (.ite (isAt_leaving left mark) (fun _ => ?_) fun _ => ?_)
    · exact take.bind (fun _ => done _) behind left
    · refine (expect (by decide)).bind (fun _ => ?_) behind left
      exact (elements deeper shortens mark).bind fun _ => done _

theorem operand :
    Carries grammar tokens depth Parsing.operand
      (Parser.operand (.ofTokens grammar tokens) inner) := by
  intro rest left
  refine .call (take.bind (fun token => ?_) rest left)
  obtain ⟨kind, span⟩ := token
  cases kind with
  | number digits => exact number digits span
  | text | trueWord | falseWord => exact done _
  | minus => exact signed deeper .minus span
  | plus => exact signed deeper .plus span
  | leftBracket => exact (elements deeper shortens (by decide)).bind fun _ => done _
  | leftParen => exact parenthesized deeper shortens span
  | star | slash | percent | rightParen | rightBracket | comma | eof => exact fail _ _

theorem chain (floor : Nat) :
    Carries grammar tokens depth (fun steps => Parsing.chain steps floor)
      (Parser.chain (.ofTokens grammar tokens) inner floor) := by
  intro rest left
  refine .call ((operand deeper shortens rest left).bind fun first behind _ later => ?_)
  exact chainFrom deeper floor (later.trans left) (Nat.le_refl _) first

end Level

/-- Open levels and levels to give make up the limit together. -/
theorem level {levels : Nat} (total : depth + levels = nestingLimit) (floor : Nat) :
    Carries grammar tokens depth (fun steps => Parsing.level steps floor)
      (Parser.expressionWithin (.ofTokens grammar tokens) levels floor) := by
  induction levels generalizing depth floor with
  | zero =>
    intro rest left
    have full : nestingLimit ≤ (leaving grammar tokens depth rest).depth := Nat.le_of_eq total.symm
    rw [Parser.expressionWithin, Parser.look_eq, ← place_leaving left]
    refine .call ⟨List.suffix_refl _, 0, fun steps _ => ?_⟩
    simp only [Parsing.level, if_pos full]
    rfl
  | succ levels ih =>
    intro rest left
    have room : ¬ nestingLimit ≤ (leaving grammar tokens depth rest).depth := by
      change ¬ nestingLimit ≤ depth
      omega
    have deeper : depth + 1 + levels = nestingLimit := by omega
    obtain ⟨later, enough, ends⟩ :=
      chain (ih deeper) Parser.expressionWithin_shortens floor rest left
    refine .call ⟨later, enough, fun steps large => ?_⟩
    simp only [Parsing.level, if_neg room]
    -- Whatever came of it, the level is closed.
    change (Parsing.chain steps floor (leaving grammar tokens (depth + 1) rest)).bind _ = _
    rw [ends steps large]
    rfl

theorem expression : Carries grammar tokens 0 Parsing.expression
    (Parser.expression (.ofTokens grammar tokens)) :=
  level (Nat.zero_add _) 0

theorem whole :
    Carries grammar tokens 0 Parsing.whole (Parser.whole (.ofTokens grammar tokens)) := by
  refine expression.bind fun e rest left => .read ?_
  rw [next?_leaving left, Parser.look_eq]
  cases rest with
  | nil => exact .done e
  | cons token rest =>
    by_cases stop : token.kind = .eof
    · rw [if_pos (show front (token :: rest) = .eof from stop)]
      simp only [List.head?_cons, if_pos stop]
      exact .done e
    · rw [if_neg (show ¬ front (token :: rest) = .eof from stop)]
      simp only [List.head?_cons, if_neg stop]
      exact .fail _ _

end Carries

end Parsing

/-! Calls in succession. -/

def Call.parser (setting : Setting) : Call → Parser (Expr Span)
  | .expression => Parser.expression setting
  | .whole => Parser.whole setting

theorem Remains.suffix (remains : Remains tokens rest) : rest <:+ tokens := by
  obtain ⟨used, rfl, _⟩ := remains
  exact List.suffix_append used rest

namespace Call

theorem carries (call : Call) :
    Parsing.Carries grammar tokens 0 (fun steps => call.run steps)
      (call.parser (.ofTokens grammar tokens)) := by
  cases call with
  | expression => exact .expression
  | whole => exact .whole

theorem reports {P : Token → Prop} {F : ParseFailure → Prop} {setting : Setting}
    (blames : Blames setting P F) (call : Call) :
    Parser.Reports P F (fun _ => True) (call.parser setting) := by
  cases call with
  | expression => exact .expressionWithin blames nestingLimit 0
  | whole => exact .whole blames

theorem remains (call : Call) (setting : Setting) (tokens : List Token) :
    Remains tokens (call.parser setting tokens).behind := by
  have blames : Blames setting (fun _ => True) (fun _ => True) :=
    ⟨fun _ _ => trivial, fun _ _ => trivial, fun _ _ _ _ => trivial, fun _ _ _ _ _ => trivial⟩
  have reported := call.reports blames tokens fun _ _ => trivial
  cases parsed : call.parser setting tokens with
  | ok e behind =>
    rw [parsed] at reported
    exact reported.2
  | error failure behind =>
    rw [parsed] at reported
    exact reported.2

theorem shortens {call : Call} {setting : Setting} {e : Expr Span}
    (parsed : call.parser setting tokens = .ok e rest) : rest.length < tokens.length := by
  cases call with
  | expression => exact Parser.expressionWithin_shortens parsed
  | whole => exact Parser.expressionWithin_shortens (whole_ok.mp parsed).2

/-- With no level open, a call comes to an end as its parser does on the tokens left. -/
theorem run_leaving (grammar : Grammar) (call : Call) (left : rest <:+ tokens) :
    ∃ enough behind, (∀ steps, enough ≤ steps →
        call.run steps (leaving grammar tokens 0 rest) =
          some ((call.parser (.ofTokens grammar tokens) rest).outcome,
            leaving grammar tokens 0 behind)) ∧
      Remains rest behind ∧
        ∀ e, (call.parser (.ofTokens grammar tokens) rest).outcome = .ok e →
          behind.length < rest.length := by
  obtain ⟨-, enough, ends⟩ := call.carries rest left
  refine ⟨enough, _, ends, call.remains _ rest, fun e read => ?_⟩
  cases parsed : call.parser (.ofTokens grammar tokens) rest with
  | ok e behind => exact shortens parsed
  | error failure behind =>
    rw [parsed] at read
    cases read

end Call

/-- However the calls before ended, nothing is open afterwards, and no marker has been taken; and each call
came to what its parser makes of tokens that were left then. -/
theorem ParseState.runAll_outcomes (grammar : Grammar) (left : rest <:+ tokens) (calls : List Call) :
    ∃ enough results behind, (∀ steps, enough ≤ steps →
        (leaving grammar tokens 0 rest).runAll steps calls =
          some (results, leaving grammar tokens 0 behind)) ∧ results.length = calls.length ∧
      Remains rest behind ∧ ∀ result ∈ results, ∃ (call : Call) (then_ : List Token),
        Remains rest then_ ∧ result = (call.parser (.ofTokens grammar tokens) then_).outcome := by
  induction calls generalizing rest with
  | nil => exact ⟨0, [], rest, fun _ _ => rfl, rfl, .refl rest, List.forall_mem_nil _⟩
  | cons call calls ih =>
    obtain ⟨enough, between, ran, remains, -⟩ := call.run_leaving grammar left
    obtain ⟨enough', results, behind, ranAll, length, more, each⟩ := ih (remains.suffix.trans left)
    refine ⟨max enough enough', (call.parser (.ofTokens grammar tokens) rest).outcome :: results,
      behind, fun steps large => ?_, congrArg (· + 1) length, remains.trans more,
      List.forall_mem_cons.mpr ⟨⟨call, rest, .refl rest, rfl⟩, fun result mem => ?_⟩⟩
    · rw [runAll, ran steps (by omega)]
      change ((leaving grammar tokens 0 between).runAll steps calls).bind _ = _
      rw [ranAll steps (by omega)]
      rfl
    · obtain ⟨call, then_, later, outcome⟩ := each result mem
      exact ⟨call, then_, remains.trans later, outcome⟩

theorem ParseState.runAll_leaving (grammar : Grammar) (left : rest <:+ tokens) (calls : List Call) :
    ∃ enough results behind, (∀ steps, enough ≤ steps →
        (leaving grammar tokens 0 rest).runAll steps calls =
          some (results, leaving grammar tokens 0 behind)) ∧ results.length = calls.length ∧
      Remains rest behind := by
  obtain ⟨enough, results, behind, ranAll, length, remains, -⟩ := runAll_outcomes grammar left calls
  exact ⟨enough, results, behind, ranAll, length, remains⟩

theorem ParseState.runAll_blames {P : Token → Prop} {F : ParseFailure → Prop}
    (blames : Blames (.ofTokens grammar tokens) P F) (each : ∀ token ∈ tokens, P token)
    (calls : List Call) :
    ∃ enough results after, (∀ steps, enough ≤ steps →
        (start grammar tokens).runAll steps calls = some (results, after)) ∧
      results.length = calls.length ∧ ∀ e, .error e ∈ results → F e := by
  obtain ⟨enough, results, behind, ranAll, length, _, outcomes⟩ :=
    runAll_outcomes grammar (List.suffix_refl tokens) calls
  rw [← start_eq_leaving] at ranAll
  refine ⟨enough, results, _, ranAll, length, fun e mem => ?_⟩
  obtain ⟨call, rest, remains, outcome⟩ := outcomes _ mem
  have reported := call.reports blames rest fun token mem => each token (remains.subset mem)
  cases parsed : call.parser (.ofTokens grammar tokens) rest with
  | ok a behind =>
    rw [parsed] at outcome
    cases outcome
  | error failure behind =>
    rw [parsed] at outcome reported
    obtain rfl := Except.error.inj outcome
    exact reported.1

theorem Remains.drop_position (remains : Remains tokens rest) (grammar : Grammar) :
    tokens.drop (leaving grammar tokens depth rest).position = rest := by
  obtain ⟨used, rfl, _⟩ := remains
  simp [leaving]

theorem Remains.unmarked (remains : Remains tokens rest) (grammar : Grammar) :
    ∀ token ∈ tokens.take (leaving grammar tokens depth rest).position, token.kind ≠ .eof := by
  obtain ⟨used, rfl, inside⟩ := remains
  simpa [leaving] using inside

theorem Remains.inside (remains : Remains tokens rest) (grammar : Grammar) :
    (leaving grammar tokens depth rest).position ≤ (beforeEnd tokens).length := by
  obtain ⟨used, rfl, inside⟩ := remains
  rw [beforeEnd, List.takeWhile_append_of_pos (by simpa using inside)]
  simp [leaving]

/-- What a call on a parser between calls does to it: no level stays open, the position goes on over
tokens before the end, by one at least if an expression was read, and the outcome is that of parsing what
was left with all levels to give. -/
structure Advances (grammar : Grammar) (tokens : List Token) (call : Call) (before : ParseState)
    (result : Except ParseFailure (Expr Span)) (after : ParseState) : Prop where
  closed_before : before = ⟨grammar, tokens, before.position, 0⟩
  closed_after : after = ⟨grammar, tokens, after.position, 0⟩
  forward : before.position ≤ after.position
  inside : after.position ≤ (beforeEnd tokens).length
  unmarked : ∀ token ∈ tokens.take after.position, token.kind ≠ .eof
  progress : ∀ e, result = .ok e → before.position < after.position
  budget : result =
    (call.parser (.ofTokens grammar tokens) (tokens.drop before.position)).outcome

/-- On any tokens and after any calls, whether they succeeded or failed, a further call comes to an end
and leaves the parser as it should be. -/
theorem parser_survives (grammar : Grammar) (tokens : List Token) (calls : List Call) (call : Call) :
    ∃ enough results before result after,
      (∀ steps, enough ≤ steps →
        (ParseState.start grammar tokens).runAll steps calls = some (results, before) ∧
          call.run steps before = some (result, after)) ∧
        results.length = calls.length ∧ Advances grammar tokens call before result after := by
  obtain ⟨enough, results, rest, ranAll, length, remains⟩ :=
    ParseState.runAll_leaving grammar (List.suffix_refl tokens) calls
  obtain ⟨enough', behind, ran, more, shorter⟩ := call.run_leaving grammar remains.suffix
  refine ⟨max enough enough', results, leaving grammar tokens 0 rest,
    (call.parser (.ofTokens grammar tokens) rest).outcome, leaving grammar tokens 0 behind,
    fun steps large => ?_, length, rfl, rfl, ?_, (remains.trans more).inside grammar,
    (remains.trans more).unmarked grammar, fun e read => ?_, ?_⟩
  · exact ⟨start_eq_leaving grammar tokens ▸ ranAll steps (by omega), ran steps (by omega)⟩
  · exact Nat.sub_le_sub_left more.suffix.length_le _
  · have taken := shorter e read
    have within := remains.suffix.length_le
    exact Nat.sub_lt_sub_left (by omega) taken
  · rw [remains.drop_position]

/-- Behind a mark that begins no expression, the next call reads the number. -/
example :
    (ParseState.start .literal [⟨.star, ⟨0, 1, 1, 1⟩⟩, ⟨.number "7", ⟨1, 2, 1, 2⟩⟩]).runAll 3
        [.expression, .whole] =
      some ([.error ⟨.unexpected .star, ⟨0, 1, 1, 1⟩⟩, .ok (.number ⟨1, 2, 1, 2⟩ 7)],
        ⟨.literal, [⟨.star, ⟨0, 1, 1, 1⟩⟩, ⟨.number "7", ⟨1, 2, 1, 2⟩⟩], 2, 0⟩) := by
  rfl

end Terse
