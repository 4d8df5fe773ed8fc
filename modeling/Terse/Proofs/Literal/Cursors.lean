import Terse.Proofs.Literal.Placement

/-! Cursors within a source. A cursor stands behind some of the characters of its source and before the
others, and so it does after every read, be it that the read has failed. What is known of one read
therefore holds of every token of a source, and of the failure that keeps a source from being cut. -/
namespace Terse.Cursor

variable {source : String} {cursor after : Cursor}

def StandsIn (source : String) (cursor : Cursor) : Prop :=
  ∃ before, source.toList = before ++ cursor.rest ∧
    cursor.position = Position.start.afterAll before

theorem standsIn_ofText (source : String) : (ofText source).StandsIn source :=
  ⟨[], rfl, rfl⟩

namespace StandsIn

theorem skipBlanks (stands : cursor.StandsIn source) : cursor.skipBlanks.StandsIn source := by
  obtain ⟨before, chars, position⟩ := stands
  refine ⟨before ++ cursor.rest.takeWhile Text.isBlank, ?_, ?_⟩
  · rw [chars, List.append_assoc, Cursor.skipBlanks, List.takeWhile_append_dropWhile]
  · rw [Cursor.skipBlanks, position, Position.afterAll_append]

theorem advance {taken : List Char} (stands : cursor.StandsIn source) (head : taken <+: cursor.rest) :
    (cursor.advance taken).StandsIn source := by
  obtain ⟨before, chars, position⟩ := stands
  obtain ⟨rest, split⟩ := head
  refine ⟨before ++ taken, ?_, ?_⟩
  · rw [chars, List.append_assoc, Cursor.advance, ← split, List.drop_left]
  · rw [Cursor.advance, position, Position.afterAll_append]

theorem next {result : Except LexFailure Token} (stands : cursor.StandsIn source)
    (read : cursor.next = (result, after)) : after.StandsIn source := by
  have begun := stands.skipBlanks
  simp only [Cursor.next] at read
  split at read
  · obtain ⟨_, rfl⟩ := Prod.mk.inj read
    exact begun
  · rename_i c cs begins
    have stopped := begun.advance (begins ▸ Lexeme.taken_prefix c cs)
    split at read
    all_goals
      obtain ⟨_, rfl⟩ := Prod.mk.inj read
      exact stopped

theorem token {token : Token} (stands : cursor.StandsIn source)
    (read : cursor.next = (.ok token, after)) :
    ∃ before taken rest, source.toList = before ++ (taken ++ rest) ∧
      token.span = .between (Position.start.afterAll before)
        (Position.start.afterAll (before ++ taken)) ∧
      ((taken = [] ∧ rest = [] ∧ token.kind = .eof) ∨ Lexeme.Reads taken token.kind rest) := by
  obtain ⟨before, chars, position⟩ := stands
  obtain ⟨blanks, _, ⟨rest, rfl⟩ | ⟨taken, kind, rest, reads, stop, rfl⟩⟩ := next_ok read
  · refine ⟨before ++ blanks, [], [], by simp [chars, rest], ?_, .inl ⟨rfl, rfl, rfl⟩⟩
    rw [List.append_nil, Position.afterAll_append, position]
  · refine ⟨before ++ blanks, taken, after.rest, by simp [chars, rest], ?_, .inr reads⟩
    rw [stop, Position.afterAll_append _ _ taken, Position.afterAll_append, position]

theorem written {token : Token} (stands : cursor.StandsIn source)
    (read : cursor.next = (.ok token, after)) (inner : token.kind ≠ .eof) :
    ∃ taken rest, stretch source token.span.start token.span.stop = String.ofList taken ∧
      Lexeme.Reads taken token.kind rest := by
  obtain ⟨before, taken, rest, chars, span, ⟨_, _, eof⟩ | reads⟩ := stands.token read
  · exact absurd eof inner
  · refine ⟨taken, rest, ?_, reads⟩
    rw [span, ← stretch_eq chars, Span.between, Position.start_afterAll, Position.start_afterAll]

theorem of_mem_tokenize {token : Token} {tokens : List Token} (stands : cursor.StandsIn source)
    (tokenized : cursor.tokenize.1 = .ok tokens) (mem : token ∈ tokens) :
    ∃ place after, StandsIn source place ∧ Cursor.next place = (.ok token, after) := by
  fun_induction Cursor.tokenize cursor generalizing tokens with
  | case1 => simp at tokenized
  | case2 cursor only after read =>
    obtain rfl := Except.ok.inj tokenized
    obtain rfl := List.mem_singleton.mp mem
    exact ⟨cursor, after, stands, read⟩
  | case3 cursor first after read _ outcome final more ih =>
    cases outcome with
    | error e => simp [Except.map] at tokenized
    | ok others =>
      obtain rfl := Except.ok.inj tokenized
      rcases List.mem_cons.mp mem with rfl | mem
      · exact ⟨cursor, after, stands, read⟩
      · exact ih (stands.next read) (by rw [more]) mem

theorem of_tokenize_error {e : LexFailure} (stands : cursor.StandsIn source)
    (failed : cursor.tokenize.1 = .error e) :
    ∃ place after, StandsIn source place ∧ Cursor.next place = (.error e, after) := by
  fun_induction Cursor.tokenize cursor with
  | case1 cursor fault after read =>
    obtain rfl := Except.error.inj failed
    exact ⟨cursor, after, stands, read⟩
  | case2 => simp at failed
  | case3 cursor first after read _ outcome final more ih =>
    cases outcome with
    | ok others => simp [Except.map] at failed
    | error fault =>
      obtain rfl := Except.error.inj failed
      exact ih (stands.next read) (by rw [more])

end StandsIn

end Terse.Cursor
