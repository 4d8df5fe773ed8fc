import Terse.Proofs.Literal.Cursors

namespace Terse

/-- Where the source has this token, if it is a text, stand a quote, an encoding of it, and the same
quote. -/
def Token.Quoted (source : String) (token : Token) : Prop :=
  ∀ content, token.kind = .text content → ∃ quote code, IsQuote quote ∧
    Encodes quote code content.toList ∧
      stretch source token.span.start token.span.stop = String.ofList (quote :: (code ++ [quote]))

theorem Cursor.StandsIn.quoted {source : String} {cursor after : Cursor} {token : Token}
    (stands : cursor.StandsIn source) (read : cursor.next = (.ok token, after)) :
    token.Quoted source := by
  intro content kind
  obtain ⟨taken, rest, place, reads⟩ := stands.written read (kind ▸ nofun)
  rw [kind] at reads
  obtain ⟨quote, code, mark, encodes, rfl⟩ := Lexeme.reads_text_iff.mp reads
  exact ⟨quote, code, mark, encodes, place⟩

/-- Any encoding of a text between quotes is read as this text and nothing behind it; and every text
that is read anywhere in a source stands there in quotes, in one of its encodings. -/
theorem texts_quoted_exactly :
    (∀ quote code content, IsQuote quote → Encodes quote code content →
      (tokenize (String.ofList (quote :: (code ++ [quote])))).map (List.map Token.kind) =
        .ok [.text (String.ofList content), .eof]) ∧
    ∀ (source : String) (cursor : Cursor), cursor.StandsIn source →
      (∀ token after, cursor.next = (.ok token, after) → token.Quoted source) ∧
      ∀ tokens, cursor.tokenize.1 = .ok tokens → ∀ token ∈ tokens, token.Quoted source := by
  refine ⟨fun quote code content mark encodes => ?_, fun source cursor stands => ⟨?_, ?_⟩⟩
  · have reads : Lexeme.Reads (quote :: (code ++ [quote])) (.text (String.ofList content)) [] :=
      Lexeme.reads_text_iff.mpr ⟨quote, code, mark, by rwa [String.toList_ofList], rfl⟩
    have tiles := @Tiles.token .start [] _ [] _ _ (by simp) reads (.finish (by simp))
    rw [List.nil_append, List.append_nil] at tiles
    rw [tokenize_ok.mpr (by rwa [String.toList_ofList])]
    rfl
  · exact fun token after read => stands.quoted read
  · intro tokens tokenized token mem
    obtain ⟨place, after, here, read⟩ := stands.of_mem_tokenize tokenized mem
    exact here.quoted read

theorem texts_quoted_exactly_escaped :
    Encodes '\'' ['é', '\\', 'n', '\\', '\\', '\\', '\''] ['é', '\n', '\\', '\''] ∧
      (tokenize "'é\\n\\\\\\''").map (List.map Token.kind) = .ok [.text "é\n\\'", .eof] ∧
      tokenize " 'é\\t'" = .ok [⟨.text "é\t", ⟨1, 7, 1, 2⟩⟩, ⟨.eof, ⟨7, 7, 1, 7⟩⟩] ∧
      Token.Quoted " 'é\\t'" ⟨.text "é\t", ⟨1, 7, 1, 2⟩⟩ := by
  have encodes : Encodes '\'' ['é', '\\', 'n', '\\', '\\', '\\', '\''] ['é', '\n', '\\', '\''] :=
    .plain (by decide) (by decide) (.newline (.escaped (.inl rfl) (.escaped (.inr (.inr rfl)) .nil)))
  have tokenized : tokenize " 'é\\t'" =
      .ok [⟨.text "é\t", ⟨1, 7, 1, 2⟩⟩, ⟨.eof, ⟨7, 7, 1, 7⟩⟩] := by
    cbv
  have read := texts_quoted_exactly.1 '\'' _ _ (.inr rfl) encodes
  have stands := Cursor.standsIn_ofText " 'é\\t'"
  exact ⟨encodes, read, tokenized,
    (texts_quoted_exactly.2 _ _ stands).2 _ tokenized _ (List.mem_cons_self ..)⟩

end Terse
