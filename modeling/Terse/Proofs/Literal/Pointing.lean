import Terse.Literal.Diagnostic
import Terse.Proofs.Literal.Blame
import Terse.Proofs.Literal.Cursors

namespace Terse

def LineBegins (before : List Char) : Prop :=
  before = [] ∨ before.getLast? = some '\n'

/-- The line ends before these characters. A carriage return directly before a line feed belongs to the
ending, as the line feed does. -/
inductive LineEnds (line : List Char) : List Char → Prop where
  | source : LineEnds line []
  | feed {after : List Char} : line.getLast? ≠ some '\r' → LineEnds line ('\n' :: after)
  | returnFeed {after : List Char} : LineEnds line ('\r' :: '\n' :: after)

/-- The line that this place of the source is in, without its ending: `left` is before the place and
`right` behind it. -/
def LineAround (source : String) (offset : Nat) (left right : List Char) : Prop :=
  ∃ before after, source.toList = before ++ (left ++ right ++ after) ∧
    offset = String.utf8Len (before ++ left) ∧ '\n' ∉ left ++ right ∧
    LineBegins before ∧ LineEnds (left ++ right) after

theorem exists_lineBegins (before : List Char) :
    ∃ earlier left, before = earlier ++ left ∧ '\n' ∉ left ∧ LineBegins earlier := by
  induction before using List.reverseRecOn with
  | nil => exact ⟨[], [], rfl, by simp, .inl rfl⟩
  | append_singleton before c ih =>
    by_cases feed : c = '\n'
    · subst feed
      exact ⟨before ++ ['\n'], [], by simp, by simp, .inr (by simp)⟩
    · obtain ⟨earlier, left, rfl, unbroken, begins⟩ := ih
      refine ⟨earlier, left ++ [c], by simp, ?_, begins⟩
      simp [unbroken, Ne.symm feed]

theorem exists_feed (rest : List Char) :
    ∃ line after, rest = line ++ after ∧ '\n' ∉ line ∧ (after = [] ∨ ∃ later, after = '\n' :: later) := by
  induction rest with
  | nil => exact ⟨[], [], rfl, by simp, .inl rfl⟩
  | cons c rest ih =>
    by_cases feed : c = '\n'
    · subst feed
      exact ⟨[], '\n' :: rest, rfl, by simp, .inr ⟨rest, rfl⟩⟩
    · obtain ⟨line, after, rfl, unbroken, ends⟩ := ih
      exact ⟨c :: line, after, rfl, by simp [unbroken, Ne.symm feed], ends⟩

theorem LineBegins.column {before left : List Char} (begins : LineBegins before)
    (unbroken : '\n' ∉ left) : columnBehind (before ++ left) = left.length + 1 := by
  have inside : ∀ c ∈ left.reverse, decide (c ≠ '\n') = true := by
    intro c mem
    refine decide_eq_true ?_
    rintro rfl
    exact unbroken (List.mem_reverse.mp mem)
  have stops : before.reverse.takeWhile (· ≠ '\n') = [] := by
    rcases begins with rfl | last
    · rfl
    · obtain ⟨earlier, rfl⟩ := List.getLast?_eq_some_iff.mp last
      simp
  rw [columnBehind, List.reverse_append, List.takeWhile_append_of_pos inside, stops,
    List.append_nil, List.length_reverse]

theorem LineAround.eq_nil {source : String} {offset : Nat} {left right : List Char}
    (around : LineAround source offset left right) (feed : source.toList.getLast? = some '\n')
    (final : offset = source.utf8ByteSize) : left ++ right = [] := by
  obtain ⟨before, after, chars, place, unbroken, _, _⟩ := around
  have size : String.utf8Len (right ++ after) = 0 := by
    have total := utf8ByteSize_eq chars
    simp only [String.utf8Len_append] at total place ⊢
    omega
  obtain ⟨rfl, rfl⟩ := List.append_eq_nil_iff.mp (String.utf8Len_eq_zero.mp size)
  simp only [List.append_nil] at chars unbroken ⊢
  rcases List.eq_nil_or_concat left with rfl | ⟨init, c, rfl⟩
  · rfl
  · rw [chars] at feed
    obtain rfl : c = '\n' := by simpa using feed
    simp at unbroken

namespace Diagnostic

theorem splitLines_feed (line cs rest : List Char) :
    splitLines line (cs ++ '\n' :: rest) = splitLines line cs ++ splitLines [] rest := by
  induction cs generalizing line with
  | nil => simp [splitLines]
  | cons c cs ih =>
    by_cases feed : c = '\n'
    · simp [splitLines, feed, ih]
    · simp [splitLines, feed, ih]

theorem splitLines_unbroken {line cs : List Char} (unbroken : '\n' ∉ cs) :
    splitLines line cs = [line.reverse ++ cs] := by
  induction cs generalizing line with
  | nil => simp [splitLines]
  | cons c cs ih =>
    simp only [List.mem_cons, not_or] at unbroken
    simp [splitLines, Ne.symm unbroken.1, ih unbroken.2]

theorem length_splitLines (line cs : List Char) :
    (splitLines line cs).length = cs.count '\n' + 1 := by
  induction cs generalizing line with
  | nil => rfl
  | cons c cs ih =>
    by_cases feed : c = '\n'
    · simp [splitLines, feed, ih]
    · simp [splitLines, feed, ih]

/-- The lines before a line are as many as the line feeds. -/
theorem splitLines_before {before : List Char} (begins : LineBegins before) :
    ∃ earlier : List (List Char), earlier.length = before.count '\n' ∧
      ∀ cs, splitLines [] (before ++ cs) = earlier ++ splitLines [] cs := by
  rcases begins with rfl | last
  · exact ⟨[], rfl, fun cs => rfl⟩
  · obtain ⟨init, rfl⟩ := List.getLast?_eq_some_iff.mp last
    refine ⟨splitLines [] init, by simp [length_splitLines], fun cs => ?_⟩
    rw [List.append_assoc, List.singleton_append, splitLines_feed]

theorem lines_eq {source last : List Char} {ended : List (List Char)}
    (parts : splitLines [] source = ended ++ [last]) :
    lines source = ended.map withoutReturn ++ if last = [] then [] else [last] := by
  rw [lines, parts, List.getLast?_concat, List.dropLast_concat]
  cases last <;> simp

theorem line_last {before line : List Char} (begins : LineBegins before) (unbroken : '\n' ∉ line) :
    (lines (before ++ line))[before.count '\n']?.getD [] = line := by
  obtain ⟨earlier, length, split⟩ := splitLines_before begins
  have parts : splitLines [] (before ++ line) = earlier ++ [line] := by
    rw [split, splitLines_unbroken unbroken]
    rfl
  rw [lines_eq parts, ← length, List.getElem?_append_right (by simp)]
  by_cases empty : line = []
  · simp [empty]
  · simp [empty]

theorem line_ended {before line : List Char} (begins : LineBegins before) (unbroken : '\n' ∉ line)
    (later : List Char) :
    (lines (before ++ (line ++ '\n' :: later)))[before.count '\n']?.getD [] = withoutReturn line := by
  obtain ⟨earlier, length, split⟩ := splitLines_before begins
  have more : splitLines [] later ≠ [] := by
    intro none
    have := length_splitLines [] later
    simp [none] at this
  obtain ⟨others, last, rest⟩ := (List.eq_nil_or_concat _).resolve_left more
  have parts : splitLines [] (before ++ (line ++ '\n' :: later)) =
      (earlier ++ line :: others) ++ [last] := by
    rw [split, splitLines_feed, splitLines_unbroken unbroken, rest]
    simp
  rw [lines_eq parts, ← length]
  simp

end Diagnostic

/-- The place is in the source, and not between a carriage return and its line feed. -/
def Position.OnLine (source : String) (p : Position) : Prop :=
  ∃ before rest, source.toList = before ++ rest ∧ p = Position.start.afterAll before ∧
    (rest.head? = some '\n' → before.getLast? ≠ some '\r')

/-- The line that is shown for a place is the line that the place is in. -/
theorem Position.OnLine.around {source : String} {p : Position} (here : p.OnLine source)
    (short : source.length < 2 ^ 32 - 1) :
    ∃ left right, LineAround source p.offset left right ∧ p.column.toNat = left.length + 1 ∧
      (Diagnostic.lines source.toList)[p.line.toNat - 1]?.getD [] = left ++ right := by
  obtain ⟨before, rest, chars, rfl, apart⟩ := here
  obtain ⟨line, column⟩ := Position.exact_of_short chars short
  rw [Position.stretch_start chars] at line column
  obtain ⟨earlier, left, rfl, unbroken, begins⟩ := exists_lineBegins before
  have count : (earlier ++ left).count '\n' = earlier.count '\n' := by
    rw [List.count_append, List.count_eq_zero.mpr unbroken, Nat.add_zero]
  rw [lineBehind, count] at line
  rw [begins.column unbroken] at column
  rw [line, column, Nat.add_sub_cancel, Position.start_afterAll]
  obtain ⟨line, after, rfl, unbroken', ends⟩ := exists_feed rest
  have whole : '\n' ∉ left ++ line := by simp [unbroken, unbroken']
  rcases ends with rfl | ⟨later, rfl⟩
  · rw [List.append_nil] at chars
    refine ⟨left, line, ⟨earlier, [], by simp [chars], rfl, whole, begins, .source⟩, rfl, ?_⟩
    rw [chars, List.append_assoc, Diagnostic.line_last begins whole]
  · rw [List.append_assoc, ← List.append_assoc left] at chars
    have shown := Diagnostic.line_ended begins whole later
    rw [← chars] at shown
    by_cases returned : (left ++ line).getLast? = some '\r'
    · -- The carriage return is behind the place, or the place would be between it and the line feed.
      rcases List.eq_nil_or_concat line with rfl | ⟨right, c, rfl⟩
      · rw [List.append_nil] at returned
        exact absurd (by rw [List.getLast?_append, returned]; rfl) (apart rfl)
      · rw [List.concat_eq_append] at *
        obtain rfl : c = '\r' := by simpa using returned
        refine ⟨left, right, ⟨earlier, '\r' :: '\n' :: later, by simp [chars], rfl, ?_, begins,
          .returnFeed⟩, rfl, ?_⟩
        · simp_all
        · rw [shown, Diagnostic.withoutReturn, if_pos returned, ← List.append_assoc,
            List.dropLast_concat]
    · refine ⟨left, line, ⟨earlier, '\n' :: later, by simp [chars], rfl, whole, begins,
        .feed returned⟩, rfl, ?_⟩
      rw [shown, Diagnostic.withoutReturn, if_neg returned]

theorem Position.OnLine.in_source {source : String} {p : Position} (here : p.OnLine source) :
    p.In source := by
  obtain ⟨before, rest, chars, rfl, _⟩ := here
  exact Position.in_source chars

theorem Position.OnLine.exact {source : String} {p : Position} (here : p.OnLine source)
    (short : source.length < 2 ^ 32 - 1) : p.Exact source := by
  obtain ⟨before, rest, chars, rfl, _⟩ := here
  exact Position.exact_of_short chars short

theorem Position.onLine_start (source : String) : Position.start.OnLine source :=
  ⟨[], source.toList, rfl, rfl, by simp⟩

namespace Lexeme

/-- A text that is given up at an escape is given up behind the backslash. -/
theorem quoted_invalidEscape {quote c : Char} {cs : List Char}
    (fault : (quoted quote cs).2 = .error (.invalidEscape c)) :
    ∃ init, (quoted quote cs).1 = init ++ ['\\'] := by
  have passed {outcome : Except LexFault (List Char)} {d : Char}
      (failed : outcome.map (d :: ·) = .error (.invalidEscape c)) :
      outcome = .error (.invalidEscape c) := by
    cases outcome with
    | error other => simpa [Except.map] using failed
    | ok content => simp [Except.map] at failed
  fun_induction quoted quote cs with
  | case1 | case2 | case5 => simp at fault
  | case4 => exact ⟨[], rfl⟩
  | case3 c' cs d made taken outcome found ih =>
    rw [found] at ih
    obtain ⟨init, rfl⟩ := ih (passed fault)
    exact ⟨'\\' :: c' :: init, rfl⟩
  | case6 c' cs _ _ other taken outcome found ih =>
    rw [found] at ih
    obtain ⟨init, rfl⟩ := ih (passed fault)
    exact ⟨c' :: init, rfl⟩

theorem read_invalidEscape {c d : Char} {cs : List Char}
    (fault : (read c cs).outcome = .error (.invalidEscape d)) :
    ∃ init, (read c cs).taken = init ++ ['\\'] := by
  unfold read at fault ⊢
  split
  · rename_i marked
    simp [marked] at fault
  · rename_i unmarked
    simp only [unmarked] at fault
    split
    · rename_i quote
      rw [if_pos quote] at fault
      have inner : (quoted c cs).2 = .error (.invalidEscape d) := by
        cases outcome : (quoted c cs).2 with
        | error other => simpa [ofQuoted, outcome, Except.map] using fault
        | ok content => simp [ofQuoted, outcome, Except.map] at fault
      obtain ⟨init, taken⟩ := quoted_invalidEscape inner
      exact ⟨c :: init, by simp [ofQuoted, taken]⟩
    · rename_i quote
      rw [if_neg quote] at fault
      split at fault
      · simp [ofNumeral] at fault
      · split at fault
        · simp only [ofWord] at fault
          split at fault
          · simp at fault
          · split at fault <;> simp at fault
        · simp at fault

end Lexeme

namespace Cursor.StandsIn

variable {source : String} {cursor after : Cursor}

theorem onLine_token {token : Token} (stands : cursor.StandsIn source)
    (read : cursor.next = (.ok token, after)) :
    ∃ p : Position, p.OnLine source ∧ p.line = token.span.line ∧ p.column = token.span.column := by
  obtain ⟨before, taken, rest, chars, span, found⟩ := stands.token read
  refine ⟨Position.start.afterAll before, ⟨before, taken ++ rest, chars, rfl, ?_⟩,
    by rw [span]; rfl, by rw [span]; rfl⟩
  intro feed
  rcases found with ⟨rfl, rfl, _⟩ | reads
  · simp at feed
  · obtain ⟨c, cs, rfl⟩ := List.exists_cons_of_ne_nil reads.ne_nil
    obtain rfl : c = '\n' := by simpa using feed
    exact absurd reads.not_blank (by decide)

/-- Faults are reported at a character that is no blank, or directly behind a backslash. -/
theorem onLine_fault {e : LexFailure} (stands : cursor.StandsIn source)
    (read : cursor.next = (.error e, after)) :
    ∃ p : Position, p.OnLine source ∧ p.line = e.line ∧ p.column = e.column := by
  have begun := stands.skipBlanks
  simp only [Cursor.next] at read
  split at read
  · simp at read
  · rename_i c cs begins
    have visible : Text.isBlank c = false := by
      have head := List.head?_dropWhile_not Text.isBlank cursor.rest
      have dropped : cursor.rest.dropWhile Text.isBlank = c :: cs := begins
      rw [dropped] at head
      exact head
    obtain ⟨before, chars, position⟩ := begun
    rw [begins] at chars
    split at read
    · simp at read
    · rename_i fault outcome
      obtain ⟨same, _⟩ := Prod.mk.inj read
      obtain rfl := Except.error.inj same
      refine ⟨_, ?_, rfl, rfl⟩
      cases fault with
      | invalidEscape d =>
        obtain ⟨init, taken⟩ := Lexeme.read_invalidEscape outcome
        obtain ⟨rest, split⟩ := Lexeme.taken_prefix c cs
        refine ⟨before ++ (Lexeme.read c cs).taken, rest, by rw [chars, ← split, List.append_assoc],
          ?_, fun _ => ?_⟩
        · rw [Position.afterAll_append, ← position]
          rfl
        · rw [taken, ← List.append_assoc, List.getLast?_concat]
          decide
      | _ =>
        refine ⟨before, c :: cs, chars, position, fun feed => ?_⟩
        obtain rfl : c = '\n' := by simpa using feed
        exact absurd visible (by decide)

end Cursor.StandsIn

structure Diagnostic.PointsAt (source : String) (d : Diagnostic) (p : Position) : Prop where
  inSource : p.In source
  reported : d.place? = some (p.line, p.column)

/-- The diagnostic shows this place: its line and column are right, the line that is shown is the one that
the place is in, and the caret has as many blanks before it as that line has characters before the
place. -/
structure Diagnostic.Shows (source : String) (d : Diagnostic) (p : Position) : Prop where
  counted : p.Exact source
  rendered : ∃ left right, LineAround source p.offset left right ∧
    (source.toList.getLast? = some '\n' → p.offset = source.utf8ByteSize → left ++ right = []) ∧
    d.render source = d.full ++ "\n  " ++ String.ofList (left ++ right) ++ "\n  " ++
      String.ofList (List.replicate left.length ' ') ++ "^"

theorem Position.OnLine.pointed {source : String} {d : Diagnostic} {p : Position}
    (here : p.OnLine source) (reported : d.place? = some (p.line, p.column)) :
    d.PointsAt source p ∧ (source.length < 2 ^ 32 - 1 → d.Shows source p) := by
  refine ⟨⟨here.in_source, reported⟩, fun short => ?_⟩
  obtain ⟨left, right, around, column, shown⟩ := here.around short
  refine ⟨here.exact short, left, right, around, around.eq_nil, ?_⟩
  simp only [Diagnostic.render, reported, shown, column, Nat.add_sub_cancel]

theorem tokenize_error_onLine {source : String} {e : LexFailure}
    (failed : tokenize source = .error e) :
    ∃ p : Position, p.OnLine source ∧ p.line = e.line ∧ p.column = e.column := by
  obtain ⟨place, after, stands, read⟩ := (Cursor.standsIn_ofText source).of_tokenize_error failed
  exact stands.onLine_fault read

theorem parse_error_onLine {source : String} {grammar : Grammar} {tokens : List Token}
    {e : ParseFailure} (tokenized : tokenize source = .ok tokens)
    (failed : parse grammar tokens = .error e) :
    ∃ p : Position, p.OnLine source ∧ p.line = e.span.line ∧ p.column = e.span.column := by
  refine parse_error_span (P := fun span => ∃ p : Position, p.OnLine source ∧ p.line = span.line ∧
    p.column = span.column) ⟨.start, Position.onLine_start source, rfl, rfl⟩ ?_ failed
  intro token mem
  obtain ⟨place, after, stands, read⟩ :=
    (Cursor.standsIn_ofText source).of_mem_tokenize tokenized mem
  exact stands.onLine_token read

/-- Every failure to cut a source into tokens or to parse them is reported at a place in the source, and
unless the source has more lines or columns than can be counted, the caret stands under it. -/
theorem failures_point_into_source {grammar : Grammar} {source : String} {failure : ReadFailure}
    (read : readLiteral grammar source = .error failure) (reading : ∀ e, failure ≠ .runtime e) :
    ∃ p, failure.diagnostic.PointsAt source p ∧
      (source.length < 2 ^ 32 - 1 → failure.diagnostic.Shows source p) := by
  unfold readLiteral readExpr at read
  cases tokenized : tokenize source with
  | error e =>
    rw [tokenized] at read
    obtain rfl := Except.error.inj read
    obtain ⟨p, here, line, column⟩ := tokenize_error_onLine tokenized
    exact ⟨p, here.pointed (by rw [line, column]; rfl)⟩
  | ok tokens =>
    rw [tokenized] at read
    cases parsed : parse grammar tokens with
    | error e =>
      simp only [parsed] at read
      obtain rfl := Except.error.inj read
      obtain ⟨p, here, line, column⟩ := parse_error_onLine tokenized parsed
      exact ⟨p, here.pointed (by rw [line, column]; rfl)⟩
    | ok e =>
      simp only [parsed] at read
      split at read
      · rename_i fault _
        exact absurd (Except.error.inj read).symm (reading fault)
      · simp at read

/-- The escape of a carriage return that ends a line: the caret stands behind the backslash, the last
character that is shown. -/
theorem failures_point_into_source_escape :
    let source := "[1,\r\n'é\\\r\n"
    let diagnostic : Diagnostic := .ofLexFailure ⟨.invalidEscape '\r', 2, 4⟩
    readLiteral .literal source = .error (.lexical ⟨.invalidEscape '\r', 2, 4⟩) ∧
      diagnostic.render source =
        "Lexical error at line 2, column 4: Invalid escape sequence: \\\r\n  'é\\\n     ^" ∧
      source.length < 2 ^ 32 - 1 ∧
      ∃ p, diagnostic.PointsAt source p ∧ diagnostic.Shows source p := by
  intro source diagnostic
  have read : readLiteral .literal source = .error (.lexical ⟨.invalidEscape '\r', 2, 4⟩) := by
    cbv
  have short : source.length < 2 ^ 32 - 1 := by decide
  obtain ⟨p, pointed, shown⟩ := failures_point_into_source read (by simp)
  exact ⟨read, by decide +kernel, short, p, pointed, shown short⟩

end Terse
