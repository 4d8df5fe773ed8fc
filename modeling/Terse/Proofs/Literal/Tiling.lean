import Terse.Proofs.Literal.Derivation
import Terse.Proofs.Literal.Spelling

namespace Terse

namespace Lexeme

/-! What is taken stands at the head of what is read. -/

theorem numeral_prefix (cs : List Char) : numeral cs <+: cs := by
  induction cs with
  | nil => simp [numeral]
  | cons c cs ih =>
    rw [numeral_cons]
    split
    · exact (List.prefix_cons_inj c).mpr ih
    · split
      · rename_i point
        rw [point]
        exact (List.prefix_cons_inj _).mpr (List.takeWhile_prefix _)
      · exact List.nil_prefix

theorem quoted_prefix (quote : Char) (cs : List Char) : (quoted quote cs).1 <+: cs := by
  fun_induction quoted quote cs with
  | _ => simp_all

theorem taken_prefix (c : Char) (cs : List Char) : (read c cs).taken <+: c :: cs := by
  unfold read
  split
  · simp
  · split
    · simpa [ofQuoted] using quoted_prefix c cs
    · split
      · exact numeral_prefix _
      · split
        · exact List.takeWhile_prefix _
        · exact List.nil_prefix

theorem reads_of_ok {c : Char} {cs : List Char} {kind : TokenKind}
    (ok : (read c cs).outcome = .ok kind) :
    ∃ rest, c :: cs = (read c cs).taken ++ rest ∧ Reads (read c cs).taken kind rest := by
  obtain ⟨rest, split⟩ := taken_prefix c cs
  refine ⟨rest, split.symm, ?_⟩
  cases taken : (read c cs).taken with
  | nil => exact absurd taken (taken_ne_nil ok)
  | cons c' cs' =>
    rw [taken, List.cons_append, List.cons.injEq] at split
    obtain ⟨rfl, rfl⟩ := split
    refine ⟨c', cs', rfl, ?_⟩
    rw [← taken, ← ok]

end Lexeme

/-- The tokens of these characters, which begin at this place: each is read behind blanks, and the end
of input stands behind the last blanks. -/
inductive Tiles : Position → List Char → List Token → Prop where
  | finish {position : Position} {blanks : List Char} : (∀ c ∈ blanks, Text.isBlank c = true) →
      Tiles position blanks
        [⟨.eof, .between (position.afterAll blanks) (position.afterAll blanks)⟩]
  | token {position : Position} {blanks taken rest : List Char} {kind : TokenKind}
      {tokens : List Token} : (∀ c ∈ blanks, Text.isBlank c = true) → Lexeme.Reads taken kind rest →
      Tiles ((position.afterAll blanks).afterAll taken) rest tokens →
      Tiles position (blanks ++ (taken ++ rest))
        (⟨kind, .between (position.afterAll blanks) ((position.afterAll blanks).afterAll taken)⟩ ::
          tokens)

namespace Cursor

theorem skipBlanks_eq {position : Position} {blanks rest : List Char}
    (blank : ∀ c ∈ blanks, Text.isBlank c = true)
    (stops : ∀ c ∈ rest.head?, Text.isBlank c = false) :
    (⟨blanks ++ rest, position⟩ : Cursor).skipBlanks = ⟨rest, position.afterAll blanks⟩ := by
  have nothing : rest.takeWhile Text.isBlank = [] ∧ rest.dropWhile Text.isBlank = rest := by
    cases rest with
    | nil => simp
    | cons c rest => simp [stops c rfl]
  simp [skipBlanks, List.takeWhile_append_of_pos blank, List.dropWhile_append_of_pos blank, nothing]

theorem next_finish {position : Position} {blanks : List Char}
    (blank : ∀ c ∈ blanks, Text.isBlank c = true) :
    (⟨blanks, position⟩ : Cursor).next =
      (.ok ⟨.eof, .between (position.afterAll blanks) (position.afterAll blanks)⟩,
        ⟨[], position.afterAll blanks⟩) := by
  have skipped := @skipBlanks_eq position blanks [] blank (by simp)
  rw [List.append_nil] at skipped
  simp [next, skipped]

theorem next_token {position : Position} {blanks taken rest : List Char} {kind : TokenKind}
    (blank : ∀ c ∈ blanks, Text.isBlank c = true) (reads : Lexeme.Reads taken kind rest) :
    (⟨blanks ++ (taken ++ rest), position⟩ : Cursor).next =
      (.ok ⟨kind, .between (position.afterAll blanks) ((position.afterAll blanks).afterAll taken)⟩,
        ⟨rest, (position.afterAll blanks).afterAll taken⟩) := by
  obtain ⟨c, cs, rfl, read⟩ := reads
  have stops : ∀ d ∈ (c :: cs ++ rest).head?, Text.isBlank d = false := by
    rintro d ⟨⟩
    exact Lexeme.Reads.not_blank ⟨_, _, rfl, read⟩
  rw [next, skipBlanks_eq blank stops]
  simp [read, advance]

theorem next_ok {cursor after : Cursor} {token : Token} (next : cursor.next = (.ok token, after)) :
    ∃ blanks, (∀ c ∈ blanks, Text.isBlank c = true) ∧
      ((cursor.rest = blanks ∧ token = ⟨.eof, .between (cursor.position.afterAll blanks)
          (cursor.position.afterAll blanks)⟩) ∨
        ∃ taken kind, cursor.rest = blanks ++ (taken ++ after.rest) ∧
          Lexeme.Reads taken kind after.rest ∧
          after.position = (cursor.position.afterAll blanks).afterAll taken ∧
          token = ⟨kind, .between (cursor.position.afterAll blanks) after.position⟩) := by
  have skipped := List.takeWhile_append_dropWhile (p := Text.isBlank) (l := cursor.rest)
  refine ⟨cursor.rest.takeWhile Text.isBlank, List.all_eq_true.mp List.all_takeWhile, ?_⟩
  simp only [Cursor.next, skipBlanks] at next
  split at next
  · rename_i ends
    simp only [Prod.mk.injEq, Except.ok.injEq] at next
    rw [ends, List.append_nil] at skipped
    exact .inl ⟨skipped.symm, next.1.symm⟩
  · rename_i c cs begins
    split at next
    · rename_i kind outcome
      simp only [Prod.mk.injEq, Except.ok.injEq, advance] at next
      obtain ⟨rfl, rfl⟩ := next
      obtain ⟨rest, split, reads⟩ := Lexeme.reads_of_ok outcome
      have dropped : (cursor.rest.dropWhile Text.isBlank).drop (Lexeme.read c cs).taken.length = rest := by
        rw [begins, split, List.drop_left]
      refine .inr ⟨_, kind, ?_, dropped ▸ reads, rfl, rfl⟩
      rw [dropped, ← split, ← begins, skipped]
    · simp at next

theorem tokenize_of_next {cursor after : Cursor} {token : Token}
    (next : cursor.next = (.ok token, after)) :
    cursor.tokenize.1 =
      if token.kind = .eof then .ok [token] else after.tokenize.1.map (token :: ·) := by
  rw [tokenize]
  split
  · rename_i other
    simp [next] at other
  · rename_i other
    rw [next] at other
    cases other
    split <;> simp_all

theorem tiles_of_tokenize {cursor : Cursor} {tokens : List Token}
    (tokenized : cursor.tokenize.1 = .ok tokens) : Tiles cursor.position cursor.rest tokens := by
  fun_induction tokenize cursor generalizing tokens with
  | case1 => simp at tokenized
  | case2 cursor token after next kind =>
    obtain ⟨⟩ := Except.ok.inj tokenized
    obtain ⟨blanks, blank, ⟨rest, rfl⟩ | ⟨taken, found, rest, reads, _, rfl⟩⟩ := next_ok next
    · rw [rest]
      exact .finish blank
    · exact absurd kind reads.kind_ne_eof
  | case3 cursor token after next kind outcome final found ih =>
    cases outcome with
    | error e => simp [Except.map] at tokenized
    | ok others =>
      obtain ⟨⟩ := Except.ok.inj tokenized
      obtain ⟨blanks, blank, ⟨_, rfl⟩ | ⟨taken, found, rest, reads, position, rfl⟩⟩ := next_ok next
      · exact absurd rfl kind
      · rw [rest, position]
        refine .token blank reads ?_
        rw [← position]
        exact ih (by rw [‹after.tokenize = _›])

theorem tokenize_of_tiles {position : Position} {cs : List Char} {tokens : List Token}
    (tiles : Tiles position cs tokens) : (⟨cs, position⟩ : Cursor).tokenize.1 = .ok tokens := by
  induction tiles with
  | finish blank => simp [tokenize_of_next (next_finish blank)]
  | token blank reads _ ih =>
    rw [tokenize_of_next (next_token blank reads), if_neg reads.kind_ne_eof, ih]
    rfl

end Cursor

theorem tokenize_ok {source : String} {tokens : List Token} :
    tokenize source = .ok tokens ↔ Tiles .start source.toList tokens :=
  ⟨Cursor.tiles_of_tokenize, Cursor.tokenize_of_tiles⟩

theorem Position.afterAll_append (position : Position) (first second : List Char) :
    position.afterAll (first ++ second) = (position.afterAll first).afterAll second :=
  List.foldl_append

theorem Position.offset_afterAll (position : Position) (cs : List Char) :
    (position.afterAll cs).offset = position.offset + String.utf8Len cs := by
  induction cs generalizing position with
  | nil => rfl
  | cons c cs ih =>
    have step : (position.after c).offset = position.offset + c.utf8Size := by
      unfold Position.after
      split <;> rfl
    rw [afterAll, List.foldl_cons, ← afterAll, ih, step, String.utf8Len_cons]
    omega

structure Ordered (tokens : List Token) : Prop where
  each : ∀ token ∈ tokens, token.span.start ≤ token.span.stop
  pairwise : tokens.Pairwise fun left right => left.span.stop ≤ right.span.start

theorem Ordered.sublist {tokens others : List Token} (ordered : Ordered others)
    (sublist : tokens.Sublist others) : Ordered tokens :=
  ⟨fun token mem => ordered.each token (sublist.subset mem), ordered.pairwise.sublist sublist⟩

namespace Tiles

variable {position : Position} {cs : List Char} {tokens : List Token}

theorem blanks_append {blanks : List Char} (blank : ∀ c ∈ blanks, Text.isBlank c = true)
    (tiles : Tiles (position.afterAll blanks) cs tokens) : Tiles position (blanks ++ cs) tokens := by
  cases tiles with
  | @finish _ more blank' =>
    rw [← Position.afterAll_append]
    exact .finish fun c mem => (List.mem_append.mp mem).elim (blank c) (blank' c)
  | @token _ more taken rest kind tokens blank' reads tiles =>
    rw [← Position.afterAll_append position blanks more] at tiles ⊢
    rw [← List.append_assoc]
    exact .token (fun c mem => (List.mem_append.mp mem).elim (blank c) (blank' c)) reads tiles

theorem offset_le (tiles : Tiles position cs tokens) :
    ∀ token ∈ tokens, position.offset ≤ token.span.start := by
  induction tiles with
  | finish => simp [Span.between, Position.offset_afterAll]
  | token _ _ _ ih =>
    simp only [Position.offset_afterAll] at ih
    simp only [List.forall_mem_cons, Span.between, Position.offset_afterAll]
    refine ⟨by omega, fun token mem => ?_⟩
    have := ih token mem
    omega

theorem ordered (tiles : Tiles position cs tokens) : Ordered tokens := by
  induction tiles with
  | finish => exact ⟨by simp [Span.between], List.pairwise_singleton _ _⟩
  | token _ _ tiles ih =>
    refine ⟨?_, List.pairwise_cons.mpr ⟨tiles.offset_le, ih.pairwise⟩⟩
    simp only [List.forall_mem_cons, Span.between, Position.offset_afterAll]
    exact ⟨by omega, ih.each⟩

theorem ends (tiles : Tiles position cs tokens) : ∃ last, tokens = beforeEnd tokens ++ [last] := by
  induction tiles with
  | finish => exact ⟨_, rfl⟩
  | token _ reads _ ih =>
    obtain ⟨last, split⟩ := ih
    exact ⟨last, by rw [beforeEnd_cons reads.kind_ne_eof, List.cons_append, ← split]⟩

theorem drop {before : List Token} (more : tokens ≠ []) (tiles : Tiles position cs (before ++ tokens)) :
    ∃ head rest, cs = head ++ rest ∧ Tiles (position.afterAll head) rest tokens := by
  induction before generalizing position cs with
  | nil => exact ⟨[], cs, rfl, tiles⟩
  | cons token before ih =>
    rw [List.cons_append] at tiles
    generalize all : before ++ tokens = others at tiles
    cases tiles with
    | finish => simp_all
    | @token _ blanks taken rest _ _ _ _ tiles =>
      obtain ⟨head, rest, rfl, tiles⟩ := ih (all ▸ tiles)
      refine ⟨blanks ++ (taken ++ head), rest, by simp, ?_⟩
      rwa [Position.afterAll_append, Position.afterAll_append]

/-- The tokens are what was read from these characters, which begin at this place, and what is read
from them anywhere else. -/
structure Cover (position : Position) (slice : List Char) (tokens : List Token) : Prop where
  nonempty : slice ≠ []
  start : ∀ token ∈ tokens.head?, token.span.start = position.offset
  stop : ∀ token ∈ tokens.getLast?, token.span.stop = (position.afterAll slice).offset
  anywhere : ∀ place, ∃ own, Tiles place slice own ∧
    (beforeEnd own).map Token.kind = tokens.map Token.kind

namespace Cover

variable {taken rest gap slice : List Char} {kind : TokenKind}

theorem single (reads : Lexeme.Reads taken kind rest) :
    Cover position taken [⟨kind, .between position (position.afterAll taken)⟩] where
  nonempty := reads.ne_nil
  start := by rintro _ ⟨⟩; rfl
  stop := by rintro _ ⟨⟩; rfl
  anywhere place := by
    have alone : Lexeme.Reads taken kind [] := Lexeme.Reads.cut reads
    have tiles := @Tiles.token place [] taken [] kind _ (by simp) alone (.finish (by simp))
    rw [List.append_nil, List.nil_append] at tiles
    exact ⟨_, tiles, by rw [beforeEnd_cons reads.kind_ne_eof]; rfl⟩

theorem cons (some : tokens ≠ []) (blank : ∀ c ∈ gap, Text.isBlank c = true)
    (reads : Lexeme.Reads taken kind (gap ++ (slice ++ rest)))
    (cover : Cover ((position.afterAll taken).afterAll gap) slice tokens) :
    Cover position (taken ++ (gap ++ slice))
      (⟨kind, .between position (position.afterAll taken)⟩ :: tokens) where
  nonempty := by simp [cover.nonempty]
  start := by rintro _ ⟨⟩; rfl
  stop := by
    rw [List.getLast?_cons_of_ne_nil some, Position.afterAll_append, Position.afterAll_append]
    exact cover.stop
  anywhere place := by
    obtain ⟨own, tiles, same⟩ := cover.anywhere ((place.afterAll taken).afterAll gap)
    -- The first token is read as before, although the source now ends with the slice.
    rw [← List.append_assoc] at reads
    have tiles := @Tiles.token place [] taken (gap ++ slice) kind _ (by simp) reads.cut
      (tiles.blanks_append blank)
    exact ⟨_, tiles, by rw [beforeEnd_cons reads.kind_ne_eof, List.map_cons, same, List.map_cons]⟩

end Cover

theorem take {middle others : List Token} (some : middle ≠ []) (more : others ≠ [])
    (tiles : Tiles position cs (middle ++ others)) :
    ∃ blanks slice rest, cs = blanks ++ (slice ++ rest) ∧ (∀ c ∈ blanks, Text.isBlank c = true) ∧
      Cover (position.afterAll blanks) slice middle := by
  induction middle generalizing position cs with
  | nil => exact absurd rfl some
  | cons token middle ih =>
    rw [List.cons_append] at tiles
    generalize all : middle ++ others = tokens at tiles
    cases tiles with
    | finish => simp_all
    | @token _ blanks taken rest kind _ blank reads tiles =>
      cases middle with
      | nil => exact ⟨blanks, taken, rest, rfl, blank, .single reads⟩
      | cons next middle =>
        obtain ⟨gap, slice, rest, rfl, gapBlank, cover⟩ := ih (List.cons_ne_nil _ _) (all ▸ tiles)
        exact ⟨blanks, taken ++ (gap ++ slice), rest, by simp, blank,
          .cons (List.cons_ne_nil _ _) gapBlank reads cover⟩

/-- Tokens that follow one another cover the characters from the first of them to the last. -/
theorem cover {before middle others : List Token} (some : middle ≠ []) (more : others ≠ [])
    (tiles : Tiles position cs (before ++ (middle ++ others))) :
    ∃ head slice rest, cs = head ++ (slice ++ rest) ∧
      Cover (position.afterAll head) slice middle := by
  obtain ⟨head, _, rfl, behind⟩ := tiles.drop (by simp [some])
  obtain ⟨blanks, slice, rest, rfl, _, cover⟩ := behind.take some more
  rw [← Position.afterAll_append] at cover
  exact ⟨head ++ blanks, slice, rest, by simp, cover⟩

end Tiles

end Terse
