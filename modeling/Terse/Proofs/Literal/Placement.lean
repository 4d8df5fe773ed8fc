import Mathlib.Data.List.Chain
import Terse.Proofs.Literal.Spans

namespace Terse

def stretch (source : String) (start stop : Nat) : String :=
  String.Pos.Raw.extract source ⟨start⟩ ⟨stop⟩

def lineBehind (cs : List Char) : Nat :=
  cs.count '\n' + 1

def columnBehind (cs : List Char) : Nat :=
  (cs.reverse.takeWhile (· ≠ '\n')).length + 1

/-- The place is between characters of the source, and what comes before it has been counted, as far as
32 bits go. -/
structure Position.In (source : String) (p : Position) : Prop where
  valid : (⟨p.offset⟩ : String.Pos.Raw).IsValid source
  line : p.line = .ofNat (lineBehind (stretch source 0 p.offset).toList)
  column : p.column = .ofNat (columnBehind (stretch source 0 p.offset).toList)

/-- No count has gone over the end of its bits. -/
structure Position.Exact (source : String) (p : Position) : Prop where
  line : p.line.toNat = lineBehind (stretch source 0 p.offset).toList
  column : p.column.toNat = columnBehind (stretch source 0 p.offset).toList

/-- The tokens are in order, apart from one another by blanks at most, each in its place. -/
structure Tiled (source : String) (tokens : List Token) : Prop where
  finish : ∃ inner last, tokens = inner ++ [last] ∧ last.kind = .eof ∧
    last.span.start = source.utf8ByteSize ∧ last.span.stop = source.utf8ByteSize ∧
    ∀ token ∈ inner, token.kind ≠ .eof ∧ token.span.start < token.span.stop
  ordered : tokens.Pairwise fun left right => left.span.stop ≤ right.span.start
  gaps : (Span.origin :: tokens.map Token.span).IsChain fun left right =>
    ∀ c ∈ (stretch source left.stop right.start).toList, Text.isBlank c = true
  starts : ∀ token ∈ tokens,
    Position.In source ⟨token.span.start, token.span.line, token.span.column⟩
  stops : ∀ token ∈ tokens, (⟨token.span.stop⟩ : String.Pos.Raw).IsValid source

theorem stretch_eq {source : String} {before middle after : List Char}
    (chars : source.toList = before ++ (middle ++ after)) :
    stretch source (String.utf8Len before) (String.utf8Len (before ++ middle)) =
      String.ofList middle := by
  have whole : source = String.ofList (before ++ middle ++ after) := by
    rw [List.append_assoc, ← chars, String.ofList_toList]
  rw [stretch, whole, String.utf8Len_append]
  exact String.extract_of_valid before middle after

theorem stretch_before {source : String} {before after : List Char}
    (chars : source.toList = before ++ after) :
    stretch source 0 (String.utf8Len before) = String.ofList before :=
  @stretch_eq source [] before after chars

theorem utf8ByteSize_eq {source : String} {cs : List Char} (chars : source.toList = cs) :
    source.utf8ByteSize = String.utf8Len cs := by
  rw [← chars, ← String.utf8ByteSize_ofList, String.ofList_toList]

theorem lineBehind_le (cs : List Char) : lineBehind cs ≤ cs.length + 1 :=
  Nat.succ_le_succ List.count_le_length

theorem columnBehind_le (cs : List Char) : columnBehind cs ≤ cs.length + 1 := by
  have prefix_le := (List.takeWhile_prefix (l := cs.reverse) (· ≠ '\n')).length_le
  rw [List.length_reverse] at prefix_le
  exact Nat.succ_le_succ prefix_le

theorem lineBehind_concat (cs : List Char) (c : Char) :
    lineBehind (cs ++ [c]) = if c = '\n' then lineBehind cs + 1 else lineBehind cs := by
  by_cases feed : c = '\n' <;> simp [lineBehind, feed]

theorem columnBehind_concat (cs : List Char) (c : Char) :
    columnBehind (cs ++ [c]) = if c = '\n' then 1 else columnBehind cs + 1 := by
  by_cases feed : c = '\n' <;> simp [columnBehind, feed]

namespace Position

theorem start_afterAll (cs : List Char) :
    start.afterAll cs =
      ⟨String.utf8Len cs, .ofNat (lineBehind cs), .ofNat (columnBehind cs)⟩ := by
  induction cs using List.reverseRecOn with
  | nil => rfl
  | append_singleton cs c ih =>
    rw [afterAll_append, ih, lineBehind_concat, columnBehind_concat]
    by_cases feed : c = '\n' <;>
      simp [afterAll, after, feed, String.utf8Len_append, UInt32.ofNat_add]

section

variable {source : String} {before rest : List Char} (chars : source.toList = before ++ rest)

include chars

theorem stretch_start : (stretch source 0 (start.afterAll before).offset).toList = before := by
  rw [start_afterAll, stretch_before chars, String.toList_ofList]

theorem in_source : (start.afterAll before).In source := by
  constructor
  · rw [start_afterAll]
    exact isValid_utf8Len chars
  · rw [stretch_start chars, start_afterAll]
  · rw [stretch_start chars, start_afterAll]

theorem exact_of_short (short : source.length < 2 ^ 32 - 1) :
    (start.afterAll before).Exact source := by
  have length : before.length ≤ source.length := by
    rw [← String.length_toList, chars, List.length_append]
    exact Nat.le_add_right _ _
  have line := lineBehind_le before
  have column := columnBehind_le before
  constructor
  · rw [stretch_start chars, start_afterAll]
    exact UInt32.toNat_ofNat_of_lt (by simp only [UInt32.size]; omega)
  · rw [stretch_start chars, start_afterAll]
    exact UInt32.toNat_ofNat_of_lt (by simp only [UInt32.size]; omega)

end

end Position

theorem stretch_blank {source : String} {before blanks rest : List Char}
    (blank : ∀ c ∈ blanks, Text.isBlank c = true) (chars : source.toList = before ++ (blanks ++ rest))
    {previous : Span} (stop : previous.stop = String.utf8Len before) :
    ∀ c ∈ (stretch source previous.stop
      ((Position.start.afterAll before).afterAll blanks).offset).toList, Text.isBlank c = true := by
  rw [← Position.afterAll_append, Position.start_afterAll, stop, stretch_eq chars,
    String.toList_ofList]
  exact blank

namespace Tiles

variable {source : String} {before cs : List Char} {tokens : List Token}

theorem places {position : Position} (tiles : Tiles position cs tokens) :
    ∀ token ∈ tokens, ∃ head taken rest, cs = head ++ (taken ++ rest) ∧
      token.span = .between (position.afterAll head) ((position.afterAll head).afterAll taken) := by
  induction tiles with
  | @finish position blanks blank =>
    simp only [List.mem_singleton, forall_eq]
    exact ⟨blanks, [], [], by simp, rfl⟩
  | @token position blanks taken rest kind tokens blank reads _ ih =>
    intro token mem
    rcases List.mem_cons.mp mem with rfl | mem
    · exact ⟨blanks, taken, rest, rfl, rfl⟩
    · obtain ⟨head, taken', rest', rfl, span⟩ := ih token mem
      refine ⟨blanks ++ (taken ++ head), taken', rest', by simp, ?_⟩
      rwa [Position.afterAll_append, Position.afterAll_append]

theorem starts (tiles : Tiles .start source.toList tokens) : ∀ token ∈ tokens,
    Position.In source ⟨token.span.start, token.span.line, token.span.column⟩ := by
  intro token mem
  obtain ⟨head, taken, rest, chars, span⟩ := tiles.places token mem
  rw [span]
  exact Position.in_source chars

theorem exact_of_short (tiles : Tiles .start source.toList tokens) (short : source.length < 2 ^ 32 - 1) :
    ∀ token ∈ tokens,
      Position.Exact source ⟨token.span.start, token.span.line, token.span.column⟩ := by
  intro token mem
  obtain ⟨head, taken, rest, chars, span⟩ := tiles.places token mem
  rw [span]
  exact Position.exact_of_short chars short

theorem stops (tiles : Tiles .start source.toList tokens) :
    ∀ token ∈ tokens, (⟨token.span.stop⟩ : String.Pos.Raw).IsValid source := by
  intro token mem
  obtain ⟨head, taken, rest, chars, span⟩ := tiles.places token mem
  rw [← List.append_assoc] at chars
  rw [span, ← Position.afterAll_append]
  exact (Position.in_source chars).valid

theorem gaps (tiles : Tiles (Position.start.afterAll before) cs tokens)
    (chars : source.toList = before ++ cs) (previous : Span)
    (stop : previous.stop = String.utf8Len before) :
    (previous :: tokens.map Token.span).IsChain fun left right =>
      ∀ c ∈ (stretch source left.stop right.start).toList, Text.isBlank c = true := by
  -- The place is generalized: as a term, it would keep the induction from going on to the next.
  generalize place : Position.start.afterAll before = position at tiles
  induction tiles generalizing before previous with
  | @finish position rest blank =>
    subst place
    have chars : source.toList = before ++ (rest ++ []) := by rw [chars, List.append_nil]
    exact .cons_cons (stretch_blank blank chars stop) (.singleton _)
  | @token position gap taken rest kind tokens blank reads _ ih =>
    subst place
    have behind : source.toList = before ++ (gap ++ taken) ++ rest := by
      rw [chars, List.append_assoc, List.append_assoc]
    have place : Position.start.afterAll (before ++ (gap ++ taken)) =
        ((Position.start.afterAll before).afterAll gap).afterAll taken := by
      rw [Position.afterAll_append, Position.afterAll_append]
    have stop' : (((Position.start.afterAll before).afterAll gap).afterAll taken).offset =
        String.utf8Len (before ++ (gap ++ taken)) := by
      rw [← place, Position.start_afterAll]
    exact .cons_cons (stretch_blank blank chars stop) (ih behind _ stop' place)

theorem finishes {position : Position} (tiles : Tiles position cs tokens) : ∃ inner last,
    tokens = inner ++ [last] ∧ last.kind = .eof ∧
      last.span = .between (position.afterAll cs) (position.afterAll cs) ∧
      ∀ token ∈ inner, token.kind ≠ .eof ∧ token.span.start < token.span.stop := by
  induction tiles with
  | finish _ => exact ⟨[], _, rfl, rfl, rfl, by simp⟩
  | @token position blanks taken rest kind tokens _ reads _ ih =>
    obtain ⟨inner, last, rfl, eof, span, each⟩ := ih
    refine ⟨_ :: inner, last, rfl, eof, ?_, List.forall_mem_cons.mpr ⟨⟨reads.kind_ne_eof, ?_⟩, each⟩⟩
    · rw [span, Position.afterAll_append, Position.afterAll_append]
    · have some : 0 < String.utf8Len taken :=
        Nat.pos_of_ne_zero fun none => reads.ne_nil (String.utf8Len_eq_zero.mp none)
      simp only [Span.between, Position.offset_afterAll]
      omega

end Tiles

theorem tokens_tile_source {source : String} {tokens : List Token}
    (tokenized : tokenize source = .ok tokens) :
    Tiled source tokens ∧ (source.length < 2 ^ 32 - 1 → ∀ token ∈ tokens,
      Position.Exact source ⟨token.span.start, token.span.line, token.span.column⟩) := by
  have tiles := tokenize_ok.mp tokenized
  obtain ⟨inner, last, split, eof, span, each⟩ := tiles.finishes
  have size : (Position.start.afterAll source.toList).offset = source.utf8ByteSize := by
    rw [Position.start_afterAll, utf8ByteSize_eq rfl]
  refine ⟨?_, tiles.exact_of_short⟩
  exact {
    finish := ⟨inner, last, split, eof, by rw [span, ← size]; rfl, by rw [span, ← size]; rfl, each⟩
    ordered := tiles.ordered.pairwise
    gaps := @Tiles.gaps source [] _ _ tiles rfl Span.origin rfl
    starts := tiles.starts
    stops := tiles.stops }

theorem tokens_tile_source_lines :
    let tokens : List Token := [⟨.text "é\n", ⟨0, 5, 1, 1⟩⟩, ⟨.minus, ⟨7, 8, 3, 2⟩⟩,
      ⟨.number "1", ⟨8, 9, 3, 3⟩⟩, ⟨.eof, ⟨9, 9, 3, 4⟩⟩]
    tokenize "'é\n'\n -1" = .ok tokens ∧ Tiled "'é\n'\n -1" tokens ∧
      "'é\n'\n -1".length < 2 ^ 32 - 1 ∧ ∀ token ∈ tokens,
        Position.Exact "'é\n'\n -1" ⟨token.span.start, token.span.line, token.span.column⟩ := by
  intro tokens
  have tokenized : tokenize "'é\n'\n -1" = .ok tokens := by
    cbv
  have short : "'é\n'\n -1".length < 2 ^ 32 - 1 := by decide
  obtain ⟨tiled, counted⟩ := tokens_tile_source tokenized
  exact ⟨tokenized, tiled, short, counted short⟩

end Terse
