import Terse.Proofs.Literal.Derivation

namespace Terse

/-- The phrase that an expression with this floor is. -/
def Grammar.phrase : Grammar → (floor : Nat) → Phrase
  | .literal, _ => .literal
  | .arithmetic, 0 => .sum
  | .arithmetic, 1 => .product
  | .arithmetic, _ + 2 => .unary

theorem Grammar.phrase_zero (grammar : Grammar) : grammar.phrase 0 = grammar.item := by
  cases grammar <;> rfl

namespace Parser

variable {α β : Type}

theorem andThen_ok {p : Parser α} {f : α → Parser β} {b : β} {tokens rest : List Token} :
    andThen p f tokens = .ok b rest ↔ ∃ a between, p tokens = .ok a between ∧ f a between = .ok b rest := by
  simp only [andThen]
  cases p tokens with
  | error e between => simp
  | ok a between =>
    constructor
    · exact fun parsed => ⟨a, between, rfl, parsed⟩
    · rintro ⟨_, _, ⟨⟩, parsed⟩
      exact parsed

theorem done_ok {a b : α} {tokens rest : List Token} :
    done a tokens = .ok b rest ↔ a = b ∧ tokens = rest := by
  simp [done]

theorem fail_not_ok {fault : ParseFault} {span : Span} {a : α} {tokens rest : List Token} :
    ¬ fail fault span tokens = .ok a rest := by
  simp [fail]

def place : List Token → Span
  | [] => .origin
  | token :: _ => token.span

theorem look_eq (f : TokenKind → Span → Parser α) (tokens : List Token) :
    look f tokens = f (front tokens) (place tokens) tokens := by
  cases tokens <;> rfl

variable {setting : Setting}

theorem take_ok {token : Token} {tokens rest : List Token} :
    take setting tokens = .ok token rest ↔ tokens = token :: rest ∧ token.kind ≠ .eof := by
  cases tokens with
  | nil => simp [take]
  | cons first tokens =>
    simp only [take]
    split <;> grind

theorem expect_ok {wanted : TokenKind} (inner : wanted ≠ .eof) {token : Token}
    {tokens rest : List Token} :
    expect setting wanted tokens = .ok token rest ↔ tokens = token :: rest ∧ token.kind = wanted := by
  simp only [expect, look_eq]
  split
  · rename_i found
    rw [take_ok]
    constructor
    · rintro ⟨rfl, _⟩
      exact ⟨rfl, found⟩
    · rintro ⟨rfl, rfl⟩
      exact ⟨rfl, inner⟩
  · rename_i found
    constructor
    · exact fun failed => absurd failed fail_not_ok
    · rintro ⟨rfl, rfl⟩
      exact absurd rfl found

theorem separator_ok {close : TokenKind} {u : Unit} {tokens rest : List Token} :
    separator setting close tokens = .ok u rest ↔
      (front tokens = close ∧ rest = tokens) ∨
        (front tokens ≠ close ∧ ∃ comma : Token, comma.kind = .comma ∧ tokens = comma :: rest) := by
  simp only [separator, look_eq]
  split <;> rename_i found
  · rw [done_ok]
    simp [found, eq_comm]
  · simp [andThen_ok, expect_ok, done_ok, found, and_comm]

def Stops (grammar : Grammar) (floor : Nat) (tokens : List Token) : Prop :=
  ∀ op, operatorIn grammar (front tokens) = some op → op.precedence ≤ floor

/-- The parsers take the phrases of so many levels, each as far as it goes, and no others. -/
def Exact (setting : Setting) (levels : Nat) (inner : (floor : Nat) → Parser (Expr Span)) : Prop :=
  ∀ floor tokens e rest, inner floor tokens = .ok e rest ↔ ∃ used, tokens = used ++ rest ∧
    Derives setting.grammar (setting.grammar.phrase floor) levels used e ∧
      Stops setting.grammar floor rest

theorem operatorIn_eq_some {grammar : Grammar} {kind : TokenKind} {op : Operator} :
    operatorIn grammar kind = some op ↔ grammar = .arithmetic ∧ kind = op.mark := by
  cases grammar with
  | literal => simp [operatorIn]
  | arithmetic => cases kind <;> cases op <;> simp [operatorIn, operator?, Operator.mark]

theorem stops_of_front {grammar : Grammar} {floor : Nat} {tokens : List Token}
    (found : front tokens ∈ [TokenKind.rightBracket, .rightParen, .comma, .eof]) :
    Stops grammar floor tokens := by
  intro op operator
  rw [(operatorIn_eq_some.mp operator).2] at found
  cases op <;> simp [Operator.mark] at found

section Level

variable {inner : (floor : Nat) → Parser (Expr Span)} {levels : Nat}

def Items (grammar : Grammar) (levels : Nat) (pieces : List Piece) : Prop :=
  ∀ piece ∈ pieces, Derives grammar grammar.item levels piece.tokens piece.expr

theorem Exact.item_sound (exact : Exact setting levels inner) {tokens rest : List Token} {e : Expr Span}
    (parsed : inner 0 tokens = .ok e rest) :
    ∃ used, tokens = used ++ rest ∧ Derives setting.grammar setting.grammar.item levels used e := by
  obtain ⟨used, split, derives, _⟩ := (exact ..).mp parsed
  exact ⟨used, split, setting.grammar.phrase_zero ▸ derives⟩

theorem Exact.item_complete (exact : Exact setting levels inner) {used rest : List Token} {e : Expr Span}
    (derives : Derives setting.grammar setting.grammar.item levels used e)
    (closes : front rest ∈ [TokenKind.rightBracket, .rightParen, .comma, .eof]) :
    inner 0 (used ++ rest) = .ok e rest :=
  (exact ..).mpr ⟨used, rfl, setting.grammar.phrase_zero.symm ▸ derives, stops_of_front closes⟩

theorem front_item {grammar : Grammar} {used : List Token} {e : Expr Span}
    (derives : Derives grammar grammar.item levels used e) (rest : List Token) :
    front (used ++ rest) ∉ [TokenKind.rightBracket, .rightParen, .comma, .eof] := by
  rw [front_append derives.front_ne_eof]
  exact derives.front_not_closing

def Enclosed (grammar : Grammar) (levels : Nat) (close : TokenKind) (tokens : List Token)
    (items : List (Expr Span)) (span : Span) (rest : List Token) : Prop :=
  ∃ pieces used mark, tokens = used ++ mark :: rest ∧ mark.kind = close ∧ mark.span = span ∧
    Separated pieces used ∧ Items grammar levels pieces ∧ pieces.map Piece.expr = items

variable {close : TokenKind} {items : List (Expr Span)} {span : Span} {tokens rest : List Token}

theorem Enclosed.empty {grammar : Grammar} (closing : front tokens = close)
    (enclosed : Enclosed grammar levels close tokens items span rest)
    (outside : close ∈ [TokenKind.rightBracket, .rightParen]) :
    items = [] ∧ ∃ mark : Token, tokens = mark :: rest ∧ mark.kind = close ∧ mark.span = span := by
  obtain ⟨pieces, used, mark, rfl, kind, place, separated, derives, rfl⟩ := enclosed
  have first (piece : Piece) (mem : piece ∈ pieces) (more : List Token) :
      front (piece.tokens ++ more) ≠ close := by
    have := front_item (derives piece mem) more
    grind
  cases separated with
  | none => exact ⟨rfl, mark, rfl, kind, place⟩
  | last piece => exact absurd closing (first piece (by simp) _)
  | @comma piece comma pieces tokens _ _ =>
    rw [List.append_assoc] at closing
    exact absurd closing (first piece (by simp) _)

theorem closed_ok (outside : close ∈ [TokenKind.rightBracket, .rightParen]) :
    (andThen (expect setting close) fun token => done (([] : List (Expr Span)), token.span)) tokens =
        .ok (items, span) rest ↔
      items = [] ∧ ∃ mark : Token, tokens = mark :: rest ∧ mark.kind = close ∧ mark.span = span := by
  have inner : close ≠ .eof := by grind
  simp only [andThen_ok, expect_ok inner, done_ok, Prod.mk.injEq]
  grind

theorem elementsUpTo_sound (exact : Exact setting levels inner)
    (outside : close ∈ [TokenKind.rightBracket, .rightParen]) {rounds : Nat}
    (parsed : elementsUpTo setting inner close rounds tokens = .ok (items, span) rest) :
    Enclosed setting.grammar levels close tokens items span rest := by
  have nothing {tokens : List Token} {items : List (Expr Span)}
      (parsed : (andThen (expect setting close) fun token => done ([], token.span)) tokens =
        .ok (items, span) rest) : Enclosed setting.grammar levels close tokens items span rest := by
    obtain ⟨rfl, mark, rfl, kind, place⟩ := (closed_ok outside).mp parsed
    exact ⟨[], [], mark, rfl, kind, place, .none, by simp [Items], rfl⟩
  induction rounds generalizing tokens items with
  | zero => exact nothing parsed
  | succ rounds ih =>
    simp only [elementsUpTo, look_eq] at parsed
    split at parsed
    · exact nothing parsed
    · simp only [andThen_ok, separator_ok, done_ok, Prod.mk.injEq] at parsed
      obtain ⟨first, between, firstParsed, _, behind, separates, ⟨others, last⟩, _, more, ⟨rfl, rfl⟩, rfl⟩ :=
        parsed
      obtain ⟨used, rfl, derives⟩ := exact.item_sound firstParsed
      have enclosed := ih more
      -- Without a comma behind it the item is the last.
      rcases separates with ⟨closing, rfl⟩ | ⟨_, comma, kind, rfl⟩
      · obtain ⟨rfl, mark, rfl, kind, place⟩ := enclosed.empty closing outside
        exact ⟨[⟨used, first⟩], used, mark, rfl, kind, place, .last _, by simpa [Items] using derives, rfl⟩
      · obtain ⟨pieces, tokens, mark, rfl, closing, place, separated, items, rfl⟩ := enclosed
        refine ⟨⟨used, first⟩ :: pieces, used ++ comma :: tokens, mark, by simp, closing, place,
          .comma kind separated, ?_, rfl⟩
        simpa [Items] using ⟨derives, items⟩

theorem elementsUpTo_closing (outside : close ∈ [TokenKind.rightBracket, .rightParen]) {mark : Token}
    (kind : mark.kind = close) (rounds : Nat) (rest : List Token) :
    elementsUpTo setting inner close rounds (mark :: rest) = .ok ([], mark.span) rest := by
  cases rounds with
  | zero => exact (closed_ok outside).mpr ⟨rfl, mark, rfl, kind, rfl⟩
  | succ rounds =>
    rw [elementsUpTo, look_eq, if_pos (.inl kind)]
    exact (closed_ok outside).mpr ⟨rfl, mark, rfl, kind, rfl⟩

theorem elementsUpTo_item (exact : Exact setting levels inner)
    (outside : close ∈ [TokenKind.rightBracket, .rightParen]) {piece : Piece} {rounds : Nat}
    {behind tokens : List Token}
    (derives : Derives setting.grammar setting.grammar.item levels piece.tokens piece.expr)
    (closes : front behind ∈ [close, .comma])
    (separates : separator setting close behind = .ok () tokens)
    (more : elementsUpTo setting inner close rounds tokens = .ok (items, span) rest) :
    elementsUpTo setting inner close (rounds + 1) (piece.tokens ++ behind) =
      .ok (piece.expr :: items, span) rest := by
  have found := front_item derives behind
  rw [elementsUpTo, look_eq, if_neg (by grind)]
  refine andThen_ok.mpr ⟨_, _, exact.item_complete derives (by grind), ?_⟩
  refine andThen_ok.mpr ⟨(), _, separates, ?_⟩
  exact andThen_ok.mpr ⟨_, _, more, rfl⟩

theorem elementsUpTo_complete (exact : Exact setting levels inner)
    (outside : close ∈ [TokenKind.rightBracket, .rightParen]) {pieces : List Piece}
    {used : List Token} {mark : Token} (separated : Separated pieces used)
    (derives : Items setting.grammar levels pieces) (kind : mark.kind = close) {rounds : Nat}
    (enough : used.length ≤ rounds) :
    elementsUpTo setting inner close rounds (used ++ mark :: rest) =
      .ok (pieces.map Piece.expr, mark.span) rest := by
  induction separated generalizing rounds with
  | none => exact elementsUpTo_closing outside kind rounds rest
  | last piece =>
    have derives := derives piece (by simp)
    obtain ⟨rounds, rfl⟩ := Nat.exists_eq_add_one_of_ne_zero
      (Nat.ne_of_gt (Nat.lt_of_lt_of_le derives.length_pos enough))
    exact elementsUpTo_item exact outside derives (by simp [kind])
      (separator_ok.mpr (.inl ⟨kind, rfl⟩)) (elementsUpTo_closing outside kind rounds rest)
  | @comma piece comma pieces tokens separates separated ih =>
    have first := derives piece (by simp)
    simp only [List.length_append, List.length_cons] at enough
    obtain ⟨rounds, rfl⟩ := Nat.exists_eq_add_one_of_ne_zero (n := rounds) (by omega)
    rw [List.append_assoc]
    refine elementsUpTo_item exact outside first (by simp [separates])
      (separator_ok.mpr (.inr ⟨?_, comma, separates, rfl⟩))
      (ih (fun piece mem => derives piece (by simp [mem])) (by omega))
    simp only [List.cons_append, front_cons, separates]
    grind

theorem elements_ok (exact : Exact setting levels inner)
    (outside : close ∈ [TokenKind.rightBracket, .rightParen]) :
    elements setting inner close tokens = .ok (items, span) rest ↔
      Enclosed setting.grammar levels close tokens items span rest := by
  constructor
  · exact elementsUpTo_sound exact outside
  · rintro ⟨pieces, used, mark, rfl, kind, rfl, separated, derives, rfl⟩
    exact elementsUpTo_complete exact outside separated derives kind (by simp)

theorem parenthesized_sound (exact : Exact setting levels inner) {opening : Token} {e : Expr Span}
    (kind : opening.kind = .leftParen)
    (parsed : parenthesized setting inner opening.span tokens = .ok e rest) :
    ∃ used, tokens = used ++ rest ∧
      Derives setting.grammar .atom (levels + 1) (opening :: used) e := by
  simp only [parenthesized, look_eq] at parsed
  split at parsed
  · rename_i found
    simp only [andThen_ok, take_ok, done_ok] at parsed
    obtain ⟨closing, _, ⟨rfl, _⟩, rfl, rfl⟩ := parsed
    exact ⟨[closing], rfl, .unit kind found⟩
  · obtain ⟨first, behind, firstParsed, more⟩ := andThen_ok.mp parsed
    obtain ⟨used, rfl, derives⟩ := exact.item_sound firstParsed
    rw [look_eq] at more
    split at more
    · rename_i found
      simp only [andThen_ok, take_ok, done_ok] at more
      obtain ⟨closing, _, ⟨rfl, _⟩, rfl, rfl⟩ := more
      exact ⟨used ++ [closing], by simp, .group kind found derives⟩
    · have inner : TokenKind.comma ≠ .eof := by decide
      simp only [andThen_ok, expect_ok inner, done_ok, Prod.exists] at more
      obtain ⟨comma, _, ⟨rfl, separates⟩, items, span, _, listed, rfl, rfl⟩ := more
      obtain ⟨pieces, tokens, closing, rfl, closes, rfl, separated, derived, rfl⟩ :=
        (elements_ok exact (by simp)).mp listed
      refine ⟨used ++ comma :: tokens ++ [closing], by simp, ?_⟩
      exact @Derives.tuple _ _ _ _ _ ⟨used, first⟩ _ _ kind separates closes derives separated derived

theorem operand_of_atom {grammar : Grammar} {used : List Token} {e : Expr Span}
    (derives : Derives grammar .atom levels used e) :
    Derives grammar (grammar.phrase Sign.precedence) levels used e := by
  cases grammar with
  | literal => exact .literal derives
  | arithmetic => exact .unsigned derives

theorem literal_number {grammar : Grammar} {used : List Token} {e : Expr Span}
    (derives : Derives grammar .literal levels used e) (number : isNumber (front used) = true) :
    ∃ token digits q, used = [token] ∧ e = .number token.span q ∧ token.kind = .number digits ∧
      Decimal.parse? digits.toList = some q := by
  cases derives with
  | @signedNumber _ _ _ sign _ _ kind => cases sign <;> simp [kind, Sign.mark, isNumber] at number
  | literal derives =>
    cases derives with
    | number kind parses => exact ⟨_, _, _, rfl, rfl, kind, parses⟩
    | text kind | trueWord kind | falseWord kind | list kind | unit kind | group kind | tuple kind =>
      simp [kind, isNumber] at number

theorem signedOperand_sound (exact : Exact setting levels inner) (sign : Sign) {mark : Token}
    {e : Expr Span} (kind : mark.kind = sign.mark)
    (parsed : signedOperand setting inner sign mark.span tokens = .ok e rest) :
    ∃ used, tokens = used ++ rest ∧
      Derives setting.grammar (setting.grammar.phrase Sign.precedence) (levels + 1) (mark :: used) e := by
  simp only [signedOperand, look_eq] at parsed
  split at parsed
  · exact absurd parsed fail_not_ok
  · rename_i admitted
    simp only [andThen_ok, done_ok] at parsed
    obtain ⟨operand, _, parsed, rfl, rfl⟩ := parsed
    obtain ⟨used, rfl, derives, _⟩ := (exact ..).mp parsed
    refine ⟨used, rfl, ?_⟩
    rw [front_append derives.front_ne_eof] at admitted
    cases grammar : setting.grammar with
    | arithmetic =>
      rw [grammar] at derives
      exact .signed kind derives
    | literal =>
      rw [grammar] at derives
      obtain ⟨token, digits, q, rfl, rfl, number, parses⟩ :=
        literal_number derives (by simpa [grammar] using admitted)
      obtain ⟨fewer, rfl⟩ := derives.exists_levels
      exact .signedNumber kind number parses

theorem operandFrom_sound (exact : Exact setting levels inner) {token : Token} {e : Expr Span}
    (parsed : operandFrom setting inner token tokens = .ok e rest) :
    ∃ used, tokens = used ++ rest ∧
      Derives setting.grammar (setting.grammar.phrase Sign.precedence) (levels + 1) (token :: used) e := by
  cases kind : token.kind with
  | number digits =>
    simp only [operandFrom, kind] at parsed
    cases parses : Decimal.parse? digits.toList with
    | none => simp [parses, fail] at parsed
    | some q =>
      obtain ⟨rfl, rfl⟩ := done_ok.mp (by simpa only [parses] using parsed)
      exact ⟨[], rfl, operand_of_atom (.number kind parses)⟩
  | text content =>
    obtain ⟨rfl, rfl⟩ := done_ok.mp (by simpa only [operandFrom, kind] using parsed)
    exact ⟨[], rfl, operand_of_atom (.text kind)⟩
  | trueWord =>
    obtain ⟨rfl, rfl⟩ := done_ok.mp (by simpa only [operandFrom, kind] using parsed)
    exact ⟨[], rfl, operand_of_atom (.trueWord kind)⟩
  | falseWord =>
    obtain ⟨rfl, rfl⟩ := done_ok.mp (by simpa only [operandFrom, kind] using parsed)
    exact ⟨[], rfl, operand_of_atom (.falseWord kind)⟩
  | minus =>
    exact signedOperand_sound exact .minus kind (by simpa only [operandFrom, kind] using parsed)
  | plus =>
    exact signedOperand_sound exact .plus kind (by simpa only [operandFrom, kind] using parsed)
  | leftBracket =>
    simp only [operandFrom, kind, andThen_ok, done_ok, Prod.exists] at parsed
    obtain ⟨items, span, _, listed, rfl, rfl⟩ := parsed
    obtain ⟨pieces, used, closing, rfl, closes, rfl, separated, derived, rfl⟩ :=
      (elements_ok exact (by simp)).mp listed
    exact ⟨used ++ [closing], by simp, operand_of_atom (.list kind closes separated derived)⟩
  | leftParen =>
    obtain ⟨used, rfl, derives⟩ :=
      parenthesized_sound exact kind (by simpa only [operandFrom, kind] using parsed)
    exact ⟨used, rfl, operand_of_atom derives⟩
  | star | slash | percent | rightParen | rightBracket | comma | eof =>
    simp [operandFrom, kind, fail] at parsed

theorem atom_complete (exact : Exact setting levels inner) {token : Token} {used : List Token}
    {e : Expr Span} (derives : Derives setting.grammar .atom (levels + 1) (token :: used) e)
    (rest : List Token) : operandFrom setting inner token (used ++ rest) = .ok e rest := by
  unfold operandFrom
  cases derives with
  | number kind parses => simp [kind, parses, done]
  | text kind => simp [kind, done]
  | trueWord kind => simp [kind, done]
  | falseWord kind => simp [kind, done]
  | @list _ _ closing pieces tokens opening closes separated derived =>
    simp only [opening]
    refine andThen_ok.mpr ⟨(pieces.map Piece.expr, closing.span), rest, ?_, rfl⟩
    refine (elements_ok exact (by simp)).mpr ?_
    exact ⟨pieces, tokens, closing, by simp, closes, rfl, separated, derived, rfl⟩
  | @unit _ _ closing opening closes =>
    simp only [opening, parenthesized, look_eq]
    rw [if_pos (by simpa using closes)]
    exact andThen_ok.mpr ⟨closing, rest, take_ok.mpr ⟨rfl, by simp [closes]⟩, rfl⟩
  | @group _ _ closing tokens e opening closes derives =>
    simp only [opening, parenthesized, look_eq]
    have found := front_item derives (closing :: rest)
    rw [List.append_assoc, List.singleton_append, if_neg (by grind)]
    refine andThen_ok.mpr ⟨e, closing :: rest, exact.item_complete derives (by simp [closes]), ?_⟩
    rw [look_eq, if_pos (by simpa using closes)]
    exact andThen_ok.mpr ⟨closing, rest, take_ok.mpr ⟨rfl, by simp [closes]⟩, rfl⟩
  | @tuple _ _ comma closing first pieces tokens opening separates closes derives separated derived =>
    simp only [opening, parenthesized, look_eq]
    have found := front_item derives (comma :: (tokens ++ closing :: rest))
    have inner : TokenKind.comma ≠ .eof := by decide
    simp only [List.append_assoc, List.cons_append, List.nil_append]
    rw [if_neg (by grind)]
    refine andThen_ok.mpr ⟨first.expr, _, exact.item_complete derives (by simp [separates]), ?_⟩
    rw [look_eq, if_neg (by simp [separates])]
    refine andThen_ok.mpr ⟨comma, _, (expect_ok inner).mpr ⟨rfl, separates⟩, ?_⟩
    refine andThen_ok.mpr ⟨(pieces.map Piece.expr, closing.span), rest, ?_, rfl⟩
    refine (elements_ok exact (by simp)).mpr ?_
    exact ⟨pieces, tokens, closing, rfl, closes, rfl, separated, derived, rfl⟩

theorem precedence_le (op : Operator) : op.precedence ≤ 2 := by
  cases op <;> decide

theorem stops_of_le {grammar : Grammar} {floor : Nat} (le : 2 ≤ floor) (tokens : List Token) :
    Stops grammar floor tokens :=
  fun op _ => Nat.le_trans (precedence_le op) le

theorem operandFrom_sign (sign : Sign) {mark : Token} (kind : mark.kind = sign.mark) :
    operandFrom setting inner mark = signedOperand setting inner sign mark.span := by
  unfold operandFrom
  cases sign <;> simp only [kind, Sign.mark]

theorem signedOperand_complete (exact : Exact setting levels inner) (sign : Sign) {used : List Token}
    {e : Expr Span} (span : Span)
    (derives : Derives setting.grammar (setting.grammar.phrase Sign.precedence) levels used e)
    (admitted : setting.grammar = .literal → isNumber (front used) = true) (rest : List Token) :
    signedOperand setting inner sign span (used ++ rest) =
      .ok (.signed (span.join e.note) sign e) rest := by
  rw [signedOperand, look_eq, front_append derives.front_ne_eof, if_neg (by simpa using admitted)]
  refine andThen_ok.mpr ⟨e, rest, ?_, rfl⟩
  exact (exact ..).mpr ⟨used, rfl, derives, stops_of_le (by decide) rest⟩

theorem operandFrom_complete (exact : Exact setting levels inner) {token : Token} {used : List Token}
    {e : Expr Span}
    (derives : Derives setting.grammar (setting.grammar.phrase Sign.precedence) (levels + 1)
      (token :: used) e)
    (rest : List Token) : operandFrom setting inner token (used ++ rest) = .ok e rest := by
  cases grammar : setting.grammar with
  | arithmetic =>
    have derives : Derives setting.grammar .unary (levels + 1) (token :: used) e := by
      simpa only [grammar, Grammar.phrase, Sign.precedence] using derives
    cases derives with
    | unsigned atom => exact atom_complete exact atom rest
    | @signed _ _ sign _ e kind operand =>
      rw [operandFrom_sign sign kind]
      refine signedOperand_complete exact sign _ ?_ (by simp [grammar]) rest
      simpa only [grammar, Grammar.phrase, Sign.precedence] using operand
  | literal =>
    have derives : Derives setting.grammar .literal (levels + 1) (token :: used) e := by
      simpa only [grammar, Grammar.phrase] using derives
    cases derives with
    | literal atom => exact atom_complete exact atom rest
    | @signedNumber levels _ number sign _ q kind isNumber parses =>
      rw [operandFrom_sign sign kind]
      refine signedOperand_complete (e := .number number.span q) exact sign _ ?_
        (by simp [isNumber, Parser.isNumber]) rest
      simpa only [grammar, Grammar.phrase] using .literal (.number isNumber parses)

theorem operand_ok (exact : Exact setting levels inner) {e : Expr Span} :
    operand setting inner tokens = .ok e rest ↔ ∃ used, tokens = used ++ rest ∧
      Derives setting.grammar (setting.grammar.phrase Sign.precedence) (levels + 1) used e := by
  simp only [operand, andThen_ok, take_ok]
  constructor
  · rintro ⟨token, _, ⟨rfl, _⟩, parsed⟩
    obtain ⟨used, rfl, derives⟩ := operandFrom_sound exact parsed
    exact ⟨token :: used, rfl, derives⟩
  · rintro ⟨used, rfl, derives⟩
    cases used with
    | nil => exact absurd rfl derives.front_ne_eof
    | cons token used =>
      exact ⟨token, used ++ rest, ⟨rfl, derives.front_ne_eof⟩, operandFrom_complete exact derives rest⟩

/-- The steps that a chain with this floor takes before these tokens. -/
inductive Climbs (grammar : Grammar) (levels floor : Nat) : List Step → List Token → Prop where
  | stop {rest : List Token} : Stops grammar floor rest → Climbs grammar levels floor [] rest
  | step {step : Step} {steps : List Step} {rest : List Token} :
      operatorIn grammar step.mark.kind = some step.op → floor < step.op.precedence →
      Derives grammar (grammar.phrase step.op.precedence) levels step.right.tokens step.right.expr →
      Stops grammar step.op.precedence (steps.flatMap Step.tokens ++ rest) →
      Climbs grammar levels floor steps rest → Climbs grammar levels floor (step :: steps) rest

theorem chainFrom_stop {floor : Nat} (stops : Stops setting.grammar floor tokens) (rounds : Nat)
    (left : Expr Span) : chainFrom setting inner floor rounds left tokens = .ok left tokens := by
  cases rounds with
  | zero => rfl
  | succ rounds =>
    rw [chainFrom, look_eq]
    cases operator : operatorIn setting.grammar (front tokens) with
    | none => rfl
    | some op =>
      simp only
      rw [if_pos (stops op operator)]
      rfl

theorem chainFrom_step {floor : Nat} {mark : Token} {op : Operator}
    (operator : operatorIn setting.grammar mark.kind = some op) (above : floor < op.precedence)
    (rounds : Nat) (left : Expr Span) :
    chainFrom setting inner floor (rounds + 1) left (mark :: tokens) =
      andThen (inner op.precedence) (fun right =>
        chainFrom setting inner floor rounds (.binary (left.note.join right.note) op left right))
        tokens := by
  have inside : mark.kind ≠ .eof := by
    rw [(operatorIn_eq_some.mp operator).2]
    cases op <;> decide
  rw [chainFrom, look_eq, front_cons, operator]
  simp only [if_neg (Nat.not_le.mpr above)]
  rw [andThen, take_ok.mpr ⟨rfl, inside⟩]

theorem chainFrom_sound (exact : Exact setting levels inner) {floor rounds : Nat} {left e : Expr Span}
    (enough : tokens.length ≤ rounds)
    (parsed : chainFrom setting inner floor rounds left tokens = .ok e rest) :
    ∃ steps, tokens = steps.flatMap Step.tokens ++ rest ∧
      Climbs setting.grammar levels floor steps rest ∧ steps.foldl Step.apply left = e := by
  induction rounds generalizing left tokens with
  | zero =>
    obtain rfl := List.eq_nil_of_length_eq_zero (Nat.le_zero.mp enough)
    obtain ⟨rfl, rfl⟩ := done_ok.mp parsed
    exact ⟨[], rfl, .stop (stops_of_front (by simp [front])), rfl⟩
  | succ rounds ih =>
    by_cases stops : Stops setting.grammar floor tokens
    · rw [chainFrom_stop stops] at parsed
      obtain ⟨rfl, rfl⟩ := Parsed.ok.inj parsed
      exact ⟨[], rfl, .stop stops, rfl⟩
    · simp only [Stops, Classical.not_forall, Nat.not_le, exists_prop] at stops
      obtain ⟨op, operator, above⟩ := stops
      cases tokens with
      | nil => cases op <;> simp [operatorIn_eq_some, front, Operator.mark] at operator
      | cons mark tokens =>
        rw [chainFrom_step operator above] at parsed
        obtain ⟨right, behind, operand, more⟩ := andThen_ok.mp parsed
        obtain ⟨used, rfl, derives, stops⟩ := (exact ..).mp operand
        simp only [List.length_cons, List.length_append] at enough
        obtain ⟨steps, rfl, climbs, rfl⟩ := ih (by omega) more
        exact ⟨⟨mark, op, ⟨used, right⟩⟩ :: steps, by simp [Step.tokens],
          .step operator above derives stops climbs, rfl⟩

theorem chainFrom_complete (exact : Exact setting levels inner) {floor rounds : Nat} {steps : List Step}
    (climbs : Climbs setting.grammar levels floor steps rest) (left : Expr Span)
    (enough : (steps.flatMap Step.tokens).length ≤ rounds) :
    chainFrom setting inner floor rounds left (steps.flatMap Step.tokens ++ rest) =
      .ok (steps.foldl Step.apply left) rest := by
  induction climbs generalizing left rounds with
  | stop stops => exact chainFrom_stop stops rounds left
  | @step step steps rest operator above derives stops _ ih =>
    simp only [List.flatMap_cons, Step.tokens, List.length_append, List.length_cons] at enough
    obtain ⟨rounds, rfl⟩ := Nat.exists_eq_add_one_of_ne_zero (n := rounds) (by omega)
    simp only [List.flatMap_cons, Step.tokens, List.cons_append, List.append_assoc]
    rw [chainFrom_step operator above]
    refine andThen_ok.mpr ⟨step.right.expr, _, (exact ..).mpr ⟨_, rfl, derives, stops⟩, ?_⟩
    exact ih _ (by omega)

def Chained (grammar : Grammar) (levels floor : Nat) (used : List Token) (e : Expr Span)
    (rest : List Token) : Prop :=
  ∃ head first steps, used = head ++ steps.flatMap Step.tokens ∧
    Derives grammar (grammar.phrase Sign.precedence) (levels + 1) head first ∧
      Climbs grammar levels floor steps rest ∧ steps.foldl Step.apply first = e

theorem chain_ok (exact : Exact setting levels inner) {floor : Nat} {e : Expr Span} :
    chain setting inner floor tokens = .ok e rest ↔
      ∃ used, tokens = used ++ rest ∧ Chained setting.grammar levels floor used e rest := by
  simp only [chain, andThen_ok, operand_ok exact]
  constructor
  · rintro ⟨first, _, ⟨head, rfl, derives⟩, parsed⟩
    obtain ⟨steps, rfl, climbs, rfl⟩ := chainFrom_sound exact (Nat.le_refl _) parsed
    exact ⟨_, (List.append_assoc ..).symm, head, first, steps, rfl, derives, climbs, rfl⟩
  · rintro ⟨_, rfl, head, first, steps, rfl, derives, climbs, rfl⟩
    refine ⟨first, steps.flatMap Step.tokens ++ rest, ⟨head, by simp, derives⟩, ?_⟩
    exact chainFrom_complete exact climbs first (by simp)

/-! A chain is a phrase of its floor. -/

theorem mem_loose {op : Operator} : op ∈ [Operator.add, .sub] ↔ op.precedence = 1 := by
  cases op <;> decide

theorem mem_tight {op : Operator} : op ∈ [Operator.mul, .div, .mod] ↔ op.precedence = 2 := by
  cases op <;> decide

section Climbs

variable {grammar : Grammar} {floor : Nat} {steps : List Step}

theorem Climbs.stops (climbs : Climbs grammar levels floor steps rest) : Stops grammar floor rest := by
  induction climbs with
  | stop stops => exact stops
  | step _ _ _ _ _ ih => exact ih

theorem Climbs.of_mem (climbs : Climbs grammar levels floor steps rest) {step : Step}
    (mem : step ∈ steps) : operatorIn grammar step.mark.kind = some step.op ∧
      floor < step.op.precedence ∧
        Derives grammar (grammar.phrase step.op.precedence) levels step.right.tokens step.right.expr := by
  induction climbs with
  | stop => simp at mem
  | step operator above derives _ _ ih =>
    rcases List.mem_cons.mp mem with rfl | mem
    · exact ⟨operator, above, derives⟩
    · exact ih mem

theorem Climbs.append {tier : Nat} (above : floor < tier) {more : List Step}
    (uniform : ∀ step ∈ steps, operatorIn grammar step.mark.kind = some step.op ∧
      step.op.precedence = tier)
    (operands : ∀ step ∈ steps,
      Derives grammar (grammar.phrase tier) levels step.right.tokens step.right.expr)
    (stops : Stops grammar tier (more.flatMap Step.tokens ++ rest))
    (climbs : Climbs grammar levels floor more rest) :
    Climbs grammar levels floor (steps ++ more) rest := by
  induction steps with
  | nil => exact climbs
  | cons step steps ih =>
    simp only [List.forall_mem_cons] at uniform operands
    obtain ⟨⟨operator, rfl⟩, uniform⟩ := uniform
    refine .step operator above operands.1 ?_ (ih uniform operands.2)
    cases steps with
    | nil => exact stops
    | cons next steps =>
      -- The next operator does not bind more tightly, so it ends the operand of this one.
      intro op found
      obtain ⟨operator, same⟩ := uniform next (by simp)
      have found : operatorIn grammar next.mark.kind = some op := found
      rw [operator] at found
      cases found
      exact Nat.le_of_eq same

/-- In a chain at the lowest floor, what binds more tightly comes first: behind an operator of the
other kind its right operand would have taken it. -/
theorem Climbs.stratified (climbs : Climbs grammar levels 0 steps rest) :
    ∃ tight loose, steps = tight ++ loose ∧
      Climbs grammar levels 1 tight (loose.flatMap Step.tokens ++ rest) ∧
      Climbs grammar levels 0 loose rest ∧ ∀ step ∈ loose, step.op.precedence = 1 := by
  induction climbs with
  | stop stops =>
    exact ⟨[], [], rfl, .stop fun op operator => Nat.le_succ_of_le (stops op operator), .stop stops, by simp⟩
  | @step step steps rest operator above derives stops climbs ih =>
    obtain ⟨tight, loose, rfl, tightly, loosely, ones⟩ := ih
    by_cases one : step.op.precedence = 1
    · cases tightly with
      | stop more =>
        exact ⟨[], step :: loose, rfl, .stop (by simpa [Step.tokens, Stops, operator] using Nat.le_of_eq one),
          .step operator above derives stops loosely, by simpa [one] using ones⟩
      | step operator' above' =>
        rw [one] at stops
        exact absurd (stops _ operator') (by omega)
    · have two := precedence_le step.op
      refine ⟨step :: tight, loose, rfl, .step operator (by omega) derives ?_ tightly, loosely, ones⟩
      rwa [List.flatMap_append, List.append_assoc] at stops

theorem product_of_climbs {used : List Token} {first : Expr Span}
    (derives : Derives .arithmetic .unary (levels + 1) used first)
    (climbs : Climbs .arithmetic levels 1 steps rest) :
    Derives .arithmetic .product (levels + 1) (used ++ steps.flatMap Step.tokens)
      (steps.foldl Step.apply first) := by
  have two {step : Step} (mem : step ∈ steps) : step.op.precedence = 2 :=
    Nat.le_antisymm (precedence_le step.op) (climbs.of_mem mem).2.1
  refine @Derives.product _ _ ⟨used, first⟩ steps derives (fun step mem => ?_) fun step mem => ?_
  · exact ⟨(operatorIn_eq_some.mp (climbs.of_mem mem).1).2, mem_tight.mpr (two mem)⟩
  · have operand := (climbs.of_mem mem).2.2
    rwa [two mem] at operand

theorem sum_of_climbs {used : List Token} {first : Expr Span}
    (derives : Derives .arithmetic .unary (levels + 1) used first)
    (climbs : Climbs .arithmetic levels 0 steps rest) :
    Derives .arithmetic .sum (levels + 1) (used ++ steps.flatMap Step.tokens)
      (steps.foldl Step.apply first) := by
  obtain ⟨tight, loose, rfl, tightly, loosely, ones⟩ := climbs.stratified
  rw [List.flatMap_append, List.foldl_append, ← List.append_assoc]
  refine @Derives.sum _ _ ⟨_, _⟩ loose (product_of_climbs derives tightly) (fun step mem => ?_)
    fun step mem => ?_
  · exact ⟨(operatorIn_eq_some.mp (loosely.of_mem mem).1).2, mem_loose.mpr (ones step mem)⟩
  · have operand := (loosely.of_mem mem).2.2
    rwa [ones step mem] at operand

theorem climbs_of_product {used : List Token} {e : Expr Span}
    (derives : Derives .arithmetic .product (levels + 1) used e) (below : floor < 2)
    {more : List Step} (climbs : Climbs .arithmetic levels floor more rest) :
    ∃ head first steps, used = head ++ steps.flatMap Step.tokens ∧
      Derives .arithmetic .unary (levels + 1) head first ∧ steps.foldl Step.apply first = e ∧
        Climbs .arithmetic levels floor (steps ++ more) rest := by
  cases derives with
  | @product _ first steps unary marks operands =>
    refine ⟨first.tokens, first.expr, steps, rfl, unary, rfl, ?_⟩
    refine climbs.append below (fun step mem => ?_) operands (stops_of_le (Nat.le_refl 2) _)
    exact ⟨operatorIn_eq_some.mpr ⟨rfl, (marks step mem).1⟩, mem_tight.mp (marks step mem).2⟩

theorem climbs_of_sum {used : List Token} {e : Expr Span}
    (derives : Derives .arithmetic .sum (levels + 1) used e) (stops : Stops .arithmetic 0 rest) :
    Chained .arithmetic levels 0 used e rest := by
  cases derives with
  | @sum _ first loose product marks operands =>
    have climbs : Climbs .arithmetic levels 0 (loose ++ []) rest := by
      refine Climbs.append (Nat.lt_succ_self 0) (fun step mem => ?_) operands
        (fun op operator => Nat.le_succ_of_le (stops op operator)) (.stop stops)
      exact ⟨operatorIn_eq_some.mpr ⟨rfl, (marks step mem).1⟩, mem_loose.mp (marks step mem).2⟩
    rw [List.append_nil] at climbs
    obtain ⟨head, first, tight, split, unary, value, climbs⟩ :=
      climbs_of_product product (by decide) climbs
    exact ⟨head, first, tight ++ loose, by simp [split], unary, climbs, by simp [value]⟩

theorem derives_iff_operand (same : grammar.phrase floor = grammar.phrase Sign.precedence)
    (nothing : ∀ steps, Climbs grammar levels floor steps rest → steps = []) {used : List Token}
    {e : Expr Span} :
    Derives grammar (grammar.phrase floor) (levels + 1) used e ∧ Stops grammar floor rest ↔
      Chained grammar levels floor used e rest := by
  constructor
  · rintro ⟨derives, stops⟩
    exact ⟨used, e, [], by simp, same ▸ derives, .stop stops, rfl⟩
  · rintro ⟨head, first, steps, rfl, derives, climbs, rfl⟩
    obtain rfl := nothing steps climbs
    exact ⟨by simpa [same] using derives, climbs.stops⟩

/-- The phrases of a floor are the chains above it. -/
theorem derives_iff_chained {used : List Token} {e : Expr Span} :
    Derives grammar (grammar.phrase floor) (levels + 1) used e ∧ Stops grammar floor rest ↔
      Chained grammar levels floor used e rest := by
  match grammar, floor with
  | .literal, floor =>
    refine derives_iff_operand (by rfl) fun steps climbs => ?_
    cases climbs with
    | stop => rfl
    | step operator => exact absurd operator (by simp [operatorIn])
  | .arithmetic, 0 =>
    constructor
    · rintro ⟨derives, stops⟩
      exact climbs_of_sum derives stops
    · rintro ⟨head, first, steps, rfl, derives, climbs, rfl⟩
      exact ⟨sum_of_climbs derives climbs, climbs.stops⟩
  | .arithmetic, 1 =>
    constructor
    · rintro ⟨derives, stops⟩
      obtain ⟨head, first, steps, rfl, unary, rfl, climbs⟩ :=
        climbs_of_product derives (by decide) (.stop stops)
      exact ⟨head, first, steps, rfl, unary, by simpa using climbs, rfl⟩
    · rintro ⟨head, first, steps, rfl, derives, climbs, rfl⟩
      exact ⟨product_of_climbs derives climbs, climbs.stops⟩
  | .arithmetic, floor + 2 =>
    refine derives_iff_operand (by rfl) fun steps climbs => ?_
    cases climbs with
    | stop => rfl
    | @step step _ _ _ above => exact absurd above (by have := precedence_le step.op; omega)

end Climbs

theorem Exact.chain (exact : Exact setting levels inner) :
    Exact setting (levels + 1) (Parser.chain setting inner) := by
  intro floor tokens e rest
  simp only [chain_ok exact, derives_iff_chained]

end Level

/-- An expression within so many levels is a phrase within so many levels. -/
theorem expressionWithin_exact (setting : Setting) (levels : Nat) :
    Exact setting levels (expressionWithin setting levels) := by
  induction levels with
  | zero =>
    intro floor tokens e rest
    constructor
    · intro parsed
      rw [expressionWithin, look_eq] at parsed
      exact absurd parsed fail_not_ok
    · rintro ⟨used, _, derives, _⟩
      exact absurd derives.levels_pos (Nat.lt_irrefl 0)
  | succ levels ih => exact ih.chain

end Parser

theorem Derives.unique {grammar : Grammar} {levels : Nat} {tokens : List Token} {e e' : Expr Span}
    (derives : Derives grammar grammar.item levels tokens e)
    (other : Derives grammar grammar.item levels tokens e') : e = e' := by
  have parsed {x : Expr Span} (derives : Derives grammar grammar.item levels tokens x) :
      Parser.expressionWithin ⟨grammar, .origin⟩ levels 0 tokens = .ok x [] := by
    refine (Parser.expressionWithin_exact _ levels ..).mpr ⟨tokens, by simp, ?_⟩
    exact ⟨grammar.phrase_zero.symm ▸ derives, Parser.stops_of_front (by simp [front])⟩
  exact (Parsed.ok.inj ((parsed derives).symm.trans (parsed other))).1

theorem parse_ok {grammar : Grammar} {tokens : List Token} {e : Expr Span} :
    parse grammar tokens = .ok e ↔ ∃ rest, Parser.whole (.ofTokens grammar tokens) tokens = .ok e rest := by
  rw [parse]
  cases Parser.whole (.ofTokens grammar tokens) tokens <;> simp

theorem whole_ok {setting : Setting} {tokens rest : List Token} {e : Expr Span} :
    Parser.whole setting tokens = .ok e rest ↔ front rest = .eof ∧
      Parser.expression setting tokens = .ok e rest := by
  simp only [Parser.whole, Parser.andThen_ok, Parser.look_eq]
  constructor
  · rintro ⟨_, _, parsed, ended⟩
    split at ended
    · rename_i found
      obtain ⟨rfl, rfl⟩ := Parser.done_ok.mp ended
      exact ⟨found, parsed⟩
    · exact absurd ended Parser.fail_not_ok
  · rintro ⟨found, parsed⟩
    refine ⟨e, rest, parsed, ?_⟩
    rw [if_pos found]
    rfl

theorem derives_of_parse {grammar : Grammar} {tokens : List Token} {e : Expr Span}
    (parsed : parse grammar tokens = .ok e) :
    Derives grammar grammar.item nestingLimit (beforeEnd tokens) e := by
  obtain ⟨rest, parsed⟩ := parse_ok.mp parsed
  obtain ⟨ends, parsed⟩ := whole_ok.mp parsed
  obtain ⟨used, rfl, derives, _⟩ := (Parser.expressionWithin_exact _ nestingLimit ..).mp parsed
  have derives : Derives grammar grammar.item nestingLimit used e := grammar.phrase_zero ▸ derives
  rwa [beforeEnd_append derives.kind_ne_eof ends]

theorem parse_of_derives {grammar : Grammar} {tokens : List Token} {e : Expr Span}
    (derives : Derives grammar grammar.item nestingLimit (beforeEnd tokens) e) :
    parse grammar tokens = .ok e := by
  obtain ⟨rest, split, ends⟩ := exists_end tokens
  refine parse_ok.mpr ⟨rest, whole_ok.mpr ⟨ends, ?_⟩⟩
  refine (Parser.expressionWithin_exact _ nestingLimit ..).mpr ⟨_, split, ?_⟩
  exact ⟨grammar.phrase_zero.symm ▸ derives, Parser.stops_of_front (by simp [ends])⟩

/-- Parsing accepts exactly the tokens of an item, and makes of them the expression they are derived
with. -/
theorem parse_iff_derives {grammar : Grammar} {tokens : List Token} {e : Expr Span} :
    parse grammar tokens = .ok e ↔ Derives grammar grammar.item nestingLimit (beforeEnd tokens) e :=
  ⟨derives_of_parse, parse_of_derives⟩

end Terse
