import Terse.Input.Stack
import Terse.Proofs.Literal.Literals

namespace Terse

/-- These characters are cut into tokens of these kinds, wherever they stand. -/
inductive Lexes : List Char → List TokenKind → Prop where
  | finish {blanks : List Char} : (∀ c ∈ blanks, Text.isBlank c = true) → Lexes blanks [.eof]
  | token {blanks taken rest : List Char} {kind : TokenKind} {kinds : List TokenKind} :
      (∀ c ∈ blanks, Text.isBlank c = true) → Lexeme.Reads taken kind rest → Lexes rest kinds →
      Lexes (blanks ++ (taken ++ rest)) (kind :: kinds)

theorem Tiles.lexes {position : Position} {cs : List Char} {tokens : List Token}
    (tiles : Tiles position cs tokens) : Lexes cs (tokens.map Token.kind) := by
  induction tiles with
  | finish blank => exact .finish blank
  | token blank reads _ ih => exact .token blank reads ih

theorem Lexes.tiles {cs : List Char} {kinds : List TokenKind} (lexes : Lexes cs kinds)
    (position : Position) : ∃ tokens, Tiles position cs tokens ∧ tokens.map Token.kind = kinds := by
  induction lexes generalizing position with
  | finish blank => exact ⟨_, .finish blank, rfl⟩
  | @token blanks taken rest kind kinds blank reads _ ih =>
    obtain ⟨tokens, tiles, same⟩ := ih ((position.afterAll blanks).afterAll taken)
    exact ⟨_, .token blank reads tiles, congrArg _ same⟩

theorem tokenize_kinds_iff {source : String} {kinds : List TokenKind} :
    (tokenize source).map (List.map Token.kind) = .ok kinds ↔ Lexes source.toList kinds := by
  constructor
  · intro cut
    cases tokenized : tokenize source with
    | error e => simp [tokenized, Except.map] at cut
    | ok tokens =>
      obtain rfl : tokens.map Token.kind = kinds := by simpa [tokenized, Except.map] using cut
      exact (tokenize_ok.mp tokenized).lexes
  · intro lexes
    obtain ⟨tokens, tiles, rfl⟩ := lexes.tiles .start
    rw [tokenize_ok.mpr tiles]
    rfl

theorem Lexeme.Reads.before_blank {taken rest : List Char} {kind : TokenKind} {c : Char}
    (reads : Reads taken kind rest) (blank : Text.isBlank c = true) (more : List Char) :
    Reads taken kind (rest ++ c :: more) := by
  obtain ⟨spells, ends⟩ := reads_iff.mp reads
  refine reads_iff.mpr ⟨spells, fun d next => ?_⟩
  cases rest with
  | nil =>
    obtain rfl := Option.some.inj next
    exact not_goesOn_of_isBlank blank
  | cons e rest => exact ends d next

namespace Lexes

variable {cs rest before behind : List Char} {kinds kinds' : List TokenKind}

theorem ends (lexes : Lexes cs kinds) : kinds = kinds.takeWhile (· ≠ .eof) ++ [.eof] := by
  induction lexes with
  | finish => rfl
  | token _ reads _ ih =>
    rw [List.takeWhile_cons_of_pos (by simpa using reads.kind_ne_eof), List.cons_append, ← ih]

theorem blanks_append (blank : ∀ c ∈ before, Text.isBlank c = true) (lexes : Lexes cs kinds) :
    Lexes (before ++ cs) kinds := by
  have all {blanks : List Char} (blank' : ∀ c ∈ blanks, Text.isBlank c = true) :
      ∀ c ∈ before ++ blanks, Text.isBlank c = true :=
    List.forall_mem_append.mpr ⟨blank, blank'⟩
  cases lexes with
  | finish blank' => exact .finish (all blank')
  | token blank' reads lexes =>
    rw [← List.append_assoc]
    exact .token (all blank') reads lexes

theorem append {c : Char} (lexes : Lexes cs kinds) (blank : Text.isBlank c = true)
    (more : Lexes (c :: rest) kinds') :
    Lexes (cs ++ c :: rest) (kinds.takeWhile (· ≠ .eof) ++ kinds') := by
  induction lexes with
  | finish blank' => exact more.blanks_append blank'
  | token blank' reads _ ih =>
    rw [List.takeWhile_cons_of_pos (by simpa using reads.kind_ne_eof), List.append_assoc,
      List.append_assoc, List.cons_append]
    exact .token blank' (reads.before_blank blank rest) ih

theorem of_blanks_append (blank : ∀ c ∈ before, Text.isBlank c = true)
    (lexes : Lexes (before ++ cs) kinds) : Lexes cs kinds := by
  generalize all : before ++ cs = source at lexes
  cases lexes with
  | finish blank' =>
    subst all
    exact .finish (List.forall_mem_append.mp blank').2
  | @token blanks taken rest kind kinds blank' reads lexes =>
    -- A token begins with no blank, so it begins behind those in front.
    rcases List.append_eq_append_iff.mp all with ⟨more, rfl, rfl⟩ | ⟨more, rfl, split⟩
    · exact .token (List.forall_mem_append.mp blank').2 reads lexes
    · cases more with
      | nil =>
        rw [List.nil_append] at split
        rw [← split]
        exact .token (List.forall_mem_nil _) reads lexes
      | cons d more =>
        obtain ⟨e, es, rfl, ink⟩ := reads.head_inked
        obtain ⟨rfl, -⟩ := List.cons.inj split
        exact absurd (blank e (by simp)) (by simp [ink])

theorem of_append_blanks (blank : ∀ c ∈ behind, Text.isBlank c = true)
    (lexes : Lexes (cs ++ behind) kinds) : Lexes cs kinds := by
  generalize all : cs ++ behind = source at lexes
  induction lexes generalizing cs with
  | finish blank' =>
    subst all
    exact .finish (List.forall_mem_append.mp blank').1
  | @token blanks taken rest kind kinds blank' reads _ ih =>
    -- A token neither begins nor ends with a blank, so it is over before those behind.
    rcases List.append_eq_append_iff.mp all with ⟨more, rfl, split⟩ | ⟨more, rfl, split⟩
    · obtain ⟨c, cs', rfl, ink⟩ := reads.head_inked
      subst split
      exact absurd (blank c (by simp)) (by simp [ink])
    · rcases List.append_eq_append_iff.mp split with ⟨rest', rfl, rfl⟩ | ⟨excess, rfl, rfl⟩
      · exact .token blank' reads.cut (ih rfl)
      · obtain ⟨init, c, last, ink⟩ := reads.last_inked
        rcases List.eq_nil_or_concat' excess with rfl | ⟨init', d, rfl⟩
        · have token := Lexes.token blank' (@Lexeme.Reads.cut _ [] _ _ reads) (ih rfl)
          simpa using token
        · rw [← List.append_assoc] at last
          obtain ⟨-, ⟨⟩⟩ := List.append_inj' last rfl
          exact absurd (blank c (by simp)) (by simp [ink])

theorem surrounded_iff (blank : ∀ c ∈ before, Text.isBlank c = true)
    (blank' : ∀ c ∈ behind, Text.isBlank c = true) :
    Lexes (before ++ (cs ++ behind)) kinds ↔ Lexes cs kinds := by
  constructor
  · exact fun lexes => of_append_blanks blank' (of_blanks_append blank lexes)
  · intro lexes
    apply blanks_append blank
    cases behind with
    | nil => rwa [List.append_nil]
    | cons c more =>
      have joined := lexes.append (blank' c List.mem_cons_self) (.finish blank')
      rwa [← lexes.ends] at joined

theorem trim_iff {line : String} : Lexes (Text.trim line).toList kinds ↔ Lexes line.toList kinds := by
  obtain ⟨before, behind, split, blank, blank'⟩ := Text.exists_trimBlanks line.toList
  rw [Text.trim, String.toList_ofList, ← surrounded_iff blank blank', ← split]

end Lexes

namespace Expr

variable {α : Type}

mutual

theorem evaluate_bare : (e : Expr α) → e.bare.evaluate = e.evaluate
  | number _ _ | text _ _ | boolean _ _ => rfl
  | list _ items => by rw [bare, evaluate, evaluate, evaluateAll_bareAll items]
  | signed _ _ operand => by rw [bare, evaluate, evaluate, evaluate_bare operand]
  | binary _ _ left right => by
    rw [bare, evaluate, evaluate, evaluate_bare left, evaluate_bare right]

theorem evaluateAll_bareAll : (items : List (Expr α)) → evaluateAll (bareAll items) = evaluateAll items
  | [] => rfl
  | e :: es => by rw [bareAll, evaluateAll, evaluateAll, evaluate_bare e, evaluateAll_bareAll es]

end

end Expr

theorem beforeEnd_kinds (tokens : List Token) :
    (beforeEnd tokens).map Token.kind = (tokens.map Token.kind).takeWhile (· ≠ .eof) := by
  rw [List.takeWhile_map]
  rfl

/-- Sources that are cut into tokens of the same kinds are read as the same value. -/
theorem readLiteral_of_kinds {grammar : Grammar} {source other : String} {v : Value}
    (same : ∀ kinds, Lexes source.toList kinds → Lexes other.toList kinds)
    (read : readLiteral grammar source = .ok v) : readLiteral grammar other = .ok v := by
  obtain ⟨e, read, value⟩ := readLiteral_ok.mp read
  obtain ⟨tokens, tiles, derives⟩ := readExpr_ok.mp read
  obtain ⟨own, tiles', kinds⟩ := (same _ tiles.lexes).tiles .start
  have inner : (beforeEnd own).map Token.kind = (beforeEnd tokens).map Token.kind := by
    rw [beforeEnd_kinds, beforeEnd_kinds, kinds]
  obtain ⟨e', derives', bare⟩ := derives.alike _ inner
  have value' : e'.evaluate = .ok v := by
    rw [← Expr.evaluate_bare, bare, Expr.evaluate_bare, value]
  exact readLiteral_ok.mpr ⟨e', readExpr_ok.mpr ⟨own, tiles', derives'⟩, value'⟩

theorem readLiteral_trim {grammar : Grammar} {line : String} {v : Value} :
    readLiteral grammar (Text.trim line) = .ok v ↔ readLiteral grammar line = .ok v :=
  ⟨readLiteral_of_kinds fun _ => Lexes.trim_iff.mp, readLiteral_of_kinds fun _ => Lexes.trim_iff.mpr⟩

theorem evaluateLine_eq (line : String) (literalsOnly : Bool) : evaluateLine line literalsOnly =
    match readLiteral (if literalsOnly then .literal else .arithmetic) line with
    | .ok v => v
    | .error _ => .text line := by
  unfold evaluateLine
  cases read : readLiteral (if literalsOnly then .literal else .arithmetic) line with
  | ok v => simp only [readLiteral_trim.mpr read]
  | error e =>
    cases trimmed : readLiteral (if literalsOnly then .literal else .arithmetic) (Text.trim line) with
    | ok v => simp [readLiteral_trim.mp trimmed] at read
    | error e' => simp only [trimmed]

/-- Two sources with blanks between them are cut into the tokens of the one and then those of the other.
Blanks around a source make no difference to the kinds of its tokens, or to whether it has any; so a line
is read as the same value trimmed and as it is, or not read either way. -/
theorem blanks_only_separate :
    (∀ (first second blanks : String) (tokens tokens' : List Token), tokenize first = .ok tokens →
      tokenize second = .ok tokens' → blanks ≠ "" → (∀ c ∈ blanks.toList, Text.isBlank c = true) →
        (tokenize (first ++ blanks ++ second)).map (List.map Token.kind) =
          .ok ((beforeEnd tokens ++ tokens').map Token.kind)) ∧
    (∀ before source behind : String, (∀ c ∈ before.toList, Text.isBlank c = true) →
      (∀ c ∈ behind.toList, Text.isBlank c = true) → ∀ kinds,
        ((tokenize (before ++ source ++ behind)).map (List.map Token.kind) = .ok kinds ↔
          (tokenize source).map (List.map Token.kind) = .ok kinds)) ∧
    (∀ grammar line v,
      readLiteral grammar (Text.trim line) = .ok v ↔ readLiteral grammar line = .ok v) ∧
    ∀ line literalsOnly, evaluateLine line literalsOnly =
      match readLiteral (if literalsOnly then .literal else .arithmetic) line with
      | .ok v => v
      | .error _ => .text line := by
  refine ⟨?_, ?_, fun grammar line v => readLiteral_trim, evaluateLine_eq⟩
  · intro first second blanks tokens tokens' cut cut' nonempty blank
    obtain ⟨c, rest, chars⟩ := List.exists_cons_of_ne_nil (mt String.toList_eq_nil_iff.mp nonempty)
    have behind := (tokenize_ok.mp cut').lexes.blanks_append blank
    rw [tokenize_kinds_iff, List.map_append, beforeEnd_kinds, String.toList_append,
      String.toList_append, List.append_assoc]
    rw [chars] at behind blank ⊢
    exact (tokenize_ok.mp cut).lexes.append (blank c List.mem_cons_self) behind
  · intro before source behind blank blank' kinds
    rw [tokenize_kinds_iff, tokenize_kinds_iff, String.toList_append, String.toList_append,
      List.append_assoc]
    exact Lexes.surrounded_iff blank blank'

/-- A number that ends in a point, before a line feed and a no-break space, and one that begins with a
point behind them. -/
theorem blanks_only_separate_points :
    tokenize "(5_." = .ok [⟨.leftParen, ⟨0, 1, 1, 1⟩⟩, ⟨.number "5.", ⟨1, 4, 1, 2⟩⟩,
        ⟨.eof, ⟨4, 4, 1, 5⟩⟩] ∧
      tokenize ".5 'é '" = .ok [⟨.number ".5", ⟨0, 2, 1, 1⟩⟩, ⟨.text "é ", ⟨3, 8, 1, 4⟩⟩,
        ⟨.eof, ⟨8, 8, 1, 8⟩⟩] ∧
      (tokenize ("(5_." ++ "\n\u00a0" ++ ".5 'é '")).map (List.map Token.kind) =
        .ok [.leftParen, .number "5.", .number ".5", .text "é ", .eof] ∧
      (tokenize ("\t" ++ ".5 'é '" ++ "\u3000")).map (List.map Token.kind) =
        .ok [.number ".5", .text "é ", .eof] := by
  have first : tokenize "(5_." = .ok [⟨.leftParen, ⟨0, 1, 1, 1⟩⟩, ⟨.number "5.", ⟨1, 4, 1, 2⟩⟩,
      ⟨.eof, ⟨4, 4, 1, 5⟩⟩] := by
    cbv
  have second : tokenize ".5 'é '" = .ok [⟨.number ".5", ⟨0, 2, 1, 1⟩⟩, ⟨.text "é ", ⟨3, 8, 1, 4⟩⟩,
      ⟨.eof, ⟨8, 8, 1, 8⟩⟩] := by
    cbv
  have blank : ∀ c ∈ "\n\u00a0".toList, Text.isBlank c = true := by
    simp [Text.isBlank, Text.blankRanges]
  have before : ∀ c ∈ "\t".toList, Text.isBlank c = true := by
    simp [Text.isBlank, Text.blankRanges]
  have behind : ∀ c ∈ "\u3000".toList, Text.isBlank c = true := by
    simp [Text.isBlank, Text.blankRanges]
  have kinds : (tokenize ".5 'é '").map (List.map Token.kind) =
      .ok [.number ".5", .text "é ", .eof] := by
    rw [second]
    rfl
  exact ⟨first, second, blanks_only_separate.1 _ _ _ _ _ first second (by decide) blank,
    (blanks_only_separate.2.1 _ _ _ before behind _).mpr kinds⟩

end Terse
