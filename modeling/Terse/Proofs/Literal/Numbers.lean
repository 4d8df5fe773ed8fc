import Terse.Proofs.Literal.Cursors
import Terse.Proofs.Literal.Survival
import Terse.Proofs.Number.Numerals

namespace Terse

open Decimal (Magnitude Numeral charMarks)

namespace Lexeme

variable {cs : List Char}

theorem IsNumeral.exists_digit (numeral : IsNumeral cs) : ∃ c ∈ cs, c.isDigit = true := by
  obtain ⟨⟨c, rest, rfl, starts⟩, _, _⟩ := numeral
  rcases startsNumeral_iff.mp starts with digit | ⟨_, next⟩
  · exact ⟨c, List.mem_cons_self, digit⟩
  · cases rest with
    | nil => cases next
    | cons d rest => exact ⟨d, by simp, next⟩

theorem IsNumeral.exists_magnitude (numeral : IsNumeral cs) :
    ∃ q, Magnitude charMarks (cs.filter (· ≠ '_')) q := by
  apply Decimal.exists_magnitude_iff.mpr
  refine ⟨fun c mem => ?_, ?_, ?_⟩
  · obtain ⟨inside, other⟩ := List.mem_filter.mp mem
    refine (numeral.each c inside).imp_left fun each => ?_
    simpa [isNumeralChar, of_decide_eq_true other] using each
  · exact (List.filter_sublist.count_le '.').trans numeral.point
  · obtain ⟨c, inside, digit⟩ := numeral.exists_digit
    refine ⟨c, List.mem_filter.mpr ⟨inside, decide_eq_true ?_⟩, digit⟩
    rintro rfl
    cases digit

end Lexeme

def Token.ReadFrom (source : String) (token : Token) : Prop :=
  ∃ cursor after, Cursor.StandsIn source cursor ∧ cursor.next = (.ok token, after)

/-- The token, if it is a number, has the digits that the source has in its place, less the separators,
and these are a decimal numeral without a sign. -/
def Token.Converts (source : String) (token : Token) : Prop :=
  ∀ digits, token.kind = .number digits →
    digits.toList = (stretch source token.span.start token.span.stop).toList.filter (· ≠ '_') ∧
      ∃ q, Magnitude charMarks digits.toList q

theorem Token.ReadFrom.converts {source : String} {token : Token} (read : token.ReadFrom source) :
    token.Converts source := by
  intro digits kind
  obtain ⟨cursor, after, stands, next⟩ := read
  obtain ⟨taken, rest, place, reads⟩ := stands.written next (kind ▸ nofun)
  rw [kind] at reads
  obtain ⟨numeral, stripped⟩ := reads.numeral
  rw [place, String.toList_ofList, stripped]
  exact ⟨rfl, numeral.exists_magnitude⟩

def ParseFailure.SparesDigits (e : ParseFailure) : Prop :=
  ∀ digits, e.fault ≠ .badNumber digits

theorem blames_readFrom (setting : Setting) :
    Blames setting (fun token => ∃ source, token.ReadFrom source) ParseFailure.SparesDigits where
  origin := fun _ other => other
  finish := fun _ other => other
  token := fun _ _ _ other => other
  number := by
    rintro token digits ⟨source, read⟩ kind none
    obtain ⟨_, q, magnitude⟩ := read.converts digits kind
    have some := Decimal.parse?_eq_some_iff.mpr (.inl (.plain magnitude))
    rw [none] at some
    cases some

/-- Exactly the decimal numerals are read as numbers, and as what they denote; every number in a source is
such a numeral, written without a sign and perhaps with separators; and no parser of tokens from
sources fails for the digits of one, neither on them all nor on any of the calls in succession. -/
theorem numbers_convert :
    (∀ cs q, Decimal.parse? cs = some q ↔
      Numeral charMarks cs q ∨ ∃ rest, cs = '+' :: rest ∧ Magnitude charMarks rest q) ∧
    (∀ cs, (∃ q, Magnitude charMarks cs q) ↔
      (∀ c ∈ cs, c.isDigit = true ∨ c = '.') ∧ cs.count '.' ≤ 1 ∧ ∃ c ∈ cs, c.isDigit = true) ∧
    (∀ (source : String) (cursor : Cursor) tokens, cursor.StandsIn source →
      cursor.tokenize.1 = .ok tokens → ∀ token ∈ tokens, token.ReadFrom source) ∧
    (∀ source token, Token.ReadFrom source token → token.Converts source) ∧
    ∀ grammar tokens, (∀ token ∈ tokens, ∃ source, Token.ReadFrom source token) →
      (∀ digits span, parse grammar tokens ≠ .error ⟨.badNumber digits, span⟩) ∧
      ∀ calls, ∃ enough results after, (∀ steps, enough ≤ steps →
          (ParseState.start grammar tokens).runAll steps calls = some (results, after)) ∧
        results.length = calls.length ∧
        ∀ digits span, .error ⟨.badNumber digits, span⟩ ∉ results := by
  refine ⟨fun _ _ => Decimal.parse?_eq_some_iff, fun _ => Decimal.exists_magnitude_iff,
    fun _ _ _ stands tokenized _ mem => stands.of_mem_tokenize tokenized mem,
    fun _ _ read => read.converts, fun grammar tokens each => ?_⟩
  have blames := blames_readFrom (.ofTokens grammar tokens)
  constructor
  · intro digits span failed
    exact blames.of_parse each failed digits rfl
  · intro calls
    obtain ⟨enough, results, after, ran, length, spared⟩ :=
      ParseState.runAll_blames blames each calls
    exact ⟨enough, results, after, ran, length, fun digits span mem => spared _ mem digits rfl⟩

theorem numbers_convert_separated :
    tokenize "1_.2.3" = .ok [⟨.number "1.2", ⟨0, 4, 1, 1⟩⟩, ⟨.number ".3", ⟨4, 6, 1, 5⟩⟩,
        ⟨.eof, ⟨6, 6, 1, 7⟩⟩] ∧
      Token.Converts "1_.2.3" ⟨.number "1.2", ⟨0, 4, 1, 1⟩⟩ ∧
      Decimal.parse? "-.5".toList = some (-1 / 2) ∧
      ∀ digits span, parse .literal [⟨.number "1.2", ⟨0, 4, 1, 1⟩⟩, ⟨.number ".3", ⟨4, 6, 1, 5⟩⟩,
        ⟨.eof, ⟨6, 6, 1, 7⟩⟩] ≠ .error ⟨.badNumber digits, span⟩ := by
  have tokenized : tokenize "1_.2.3" = .ok [⟨.number "1.2", ⟨0, 4, 1, 1⟩⟩,
      ⟨.number ".3", ⟨4, 6, 1, 5⟩⟩, ⟨.eof, ⟨6, 6, 1, 7⟩⟩] := by
    cbv
  obtain ⟨reads, _, cut, converts, spared⟩ := numbers_convert
  have each := cut _ _ _ (Cursor.standsIn_ofText "1_.2.3") tokenized
  refine ⟨tokenized, ?_, ?_, ?_⟩
  · exact converts _ _ (each _ List.mem_cons_self)
  · apply (reads _ _).mpr
    refine .inl ?_
    have magnitude := @Magnitude.pointed Char charMarks [] [5] (by decide) (by decide)
    have value : -Decimal.denoted [] [5] = -1 / 2 := by norm_num [Decimal.denoted, valueOf]
    rw [← value]
    exact .negative magnitude
  · exact (spared .literal _ fun token mem => ⟨_, each token mem⟩).1

end Terse
