import Mathlib
import Terse.Proofs.Literal.Encoding

/-! What tokens are made of, and where they end. Some characters spell a token by themselves, and whatever
follows, a number or a word goes on for as long as it can. Characters are read as a token exactly if they
spell it and it does not go on behind them; the end of a source ends every token, and so does a blank. -/
namespace Terse

namespace Lexeme

/-- These characters, with what follows them, are read as this token, which takes all of them and no
more. -/
def Reads (taken : List Char) (kind : TokenKind) (rest : List Char) : Prop :=
  ∃ c cs, taken = c :: cs ∧ read c (cs ++ rest) = ⟨taken, .ok kind⟩

/-- Digits and separators with at most one point, of which the first is a digit, or the point with a
digit next to it. -/
structure IsNumeral (cs : List Char) : Prop where
  begins : ∃ c rest, cs = c :: rest ∧ startsNumeral c rest = true
  each : ∀ c ∈ cs, isNumeralChar c = true ∨ c = '.'
  point : cs.count '.' ≤ 1

inductive Spells : List Char → TokenKind → Prop where
  | mark {c : Char} {kind : TokenKind} : mark? c = some kind → Spells [c] kind
  | text {quote : Char} {code : List Char} {content : String} : IsQuote quote →
      Encodes quote code content.toList → Spells (quote :: (code ++ [quote])) (.text content)
  | number {cs : List Char} : IsNumeral cs →
      Spells cs (.number (String.ofList (cs.filter (· ≠ '_'))))
  | trueWord : Spells ['T', 'r', 'u', 'e'] .trueWord
  | falseWord : Spells ['F', 'a', 'l', 's', 'e'] .falseWord

/-- The token goes on with this character: a number with what numbers consist of, a second point apart,
and a word with what words consist of. -/
def GoesOn (taken : List Char) (c : Char) : TokenKind → Prop
  | .number _ => isNumeralChar c = true ∨ (c = '.' ∧ '.' ∉ taken)
  | .trueWord | .falseWord => isWordChar c = true
  | _ => False

variable {c : Char} {cs taken rest : List Char} {kind : TokenKind}

/-! Maximal runs. -/

theorem numeral_cons (c : Char) (cs : List Char) :
    numeral (c :: cs) =
      if isNumeralChar c then c :: numeral cs
      else if c = '.' then '.' :: cs.takeWhile isNumeralChar else [] := by
  by_cases digit : isNumeralChar c = true
  · simp only [numeral, List.takeWhile_cons, List.dropWhile_cons, digit, if_true]
    split <;> simp
  · by_cases point : c = '.'
    · subst point
      simp [numeral, digit]
    · simp [numeral, digit, point]

theorem takeWhile_append_iff {p : Char → Bool} : (cs ++ rest).takeWhile p = cs ↔
    (∀ c ∈ cs, p c = true) ∧ ∀ c ∈ rest.head?, p c = false := by
  induction cs with
  | nil =>
    cases rest with
    | nil => simp
    | cons c rest => simp [List.takeWhile_cons]
  | cons c cs ih =>
    by_cases holds : p c = true
    · simp [holds, ih]
    · simp [holds]

theorem point_ne_of_isNumeralChar (digit : isNumeralChar c = true) : c ≠ '.' := by
  rintro rfl
  exact absurd digit (by decide)

theorem forall_isNumeralChar_iff : (∀ c ∈ cs, isNumeralChar c = true) ↔
    (∀ c ∈ cs, isNumeralChar c = true ∨ c = '.') ∧ cs.count '.' = 0 := by
  rw [List.count_eq_zero]
  constructor
  · exact fun each => ⟨fun c mem => .inl (each c mem),
      fun mem => point_ne_of_isNumeralChar (each _ mem) rfl⟩
  · rintro ⟨each, pointless⟩ c mem
    refine (each c mem).resolve_right ?_
    rintro rfl
    exact pointless mem

theorem numeral_append_iff : numeral (cs ++ rest) = cs ↔
    (∀ c ∈ cs, isNumeralChar c = true ∨ c = '.') ∧ cs.count '.' ≤ 1 ∧
      ∀ c ∈ rest.head?, ¬ (isNumeralChar c = true ∨ (c = '.' ∧ '.' ∉ cs)) := by
  induction cs with
  | nil =>
    cases rest with
    | nil => simp [numeral]
    | cons c rest => grind [numeral_cons]
  | cons c cs ih =>
    rw [List.cons_append, numeral_cons]
    by_cases digit : isNumeralChar c = true
    · have other := point_ne_of_isNumeralChar digit
      simp [digit, ih, other, Ne.symm other]
    · by_cases point : c = '.'
      · -- Behind the point there are no more points to come.
        subst point
        simp [digit, takeWhile_append_iff, forall_isNumeralChar_iff, and_assoc]
      · simp [digit, point]

theorem startsNumeral_iff : startsNumeral c cs = true ↔
    c.isDigit = true ∨ (c = '.' ∧ cs.head?.any Char.isDigit = true) := by
  simp [startsNumeral]

theorem startsNumeral_append (starts : startsNumeral c cs = true) (rest : List Char) :
    startsNumeral c (cs ++ rest) = true := by
  rw [startsNumeral_iff] at starts ⊢
  refine starts.imp_right fun ⟨point, digit⟩ => ⟨point, ?_⟩
  cases cs with
  | nil => simp at digit
  | cons d cs => exact digit

theorem startsNumeral_of_append (starts : startsNumeral c (cs ++ rest) = true)
    (ends : ∀ d ∈ rest.head?, isNumeralChar d = false) : startsNumeral c cs = true := by
  rw [startsNumeral_iff] at starts ⊢
  refine starts.imp_right fun ⟨point, digit⟩ => ⟨point, ?_⟩
  cases cs with
  | cons d cs => exact digit
  | nil =>
    -- The digit behind the point is one that the number goes on with.
    cases rest with
    | nil => cases digit
    | cons d rest =>
      have digit : d.isDigit = true := digit
      simpa [isNumeralChar, digit] using ends d rfl

theorem mark?_of_isDigit (digit : c.isDigit = true) : mark? c = none := by
  cases mark : mark? c with
  | none => rfl
  | some kind =>
    unfold mark? at mark
    split at mark
    all_goals cases mark
    all_goals exact absurd digit (by decide)

theorem read_quote (mark : IsQuote c) (cs : List Char) : read c cs = ofQuoted c cs := by
  rcases mark with rfl | rfl <;> rfl

theorem read_numeral (starts : startsNumeral c cs = true) : read c cs = ofNumeral (c :: cs) := by
  have visible : mark? c = none ∧ ¬ (c = '"' ∨ c = '\'') := by
    rcases startsNumeral_iff.mp starts with digit | ⟨rfl, _⟩
    · refine ⟨mark?_of_isDigit digit, ?_⟩
      rintro (rfl | rfl) <;> simp at digit
    · decide
  rw [read, visible.1]
  simp only [if_neg visible.2, if_pos starts]

theorem ofQuoted_append_iff (mark : IsQuote c) : ofQuoted c (cs ++ rest) = ⟨c :: cs, .ok kind⟩ ↔
    ∃ code content, Encodes c code content ∧ cs = code ++ [c] ∧
      kind = .text (String.ofList content) := by
  rw [ofQuoted, Lexeme.mk.injEq]
  constructor
  · rintro ⟨taken, outcome⟩
    cases found : quoted c (cs ++ rest) with
    | mk inner result =>
      rw [found] at taken outcome
      cases result with
      | error fault => simp [Except.map] at outcome
      | ok content =>
        obtain ⟨code, rfl, encodes⟩ := encodes_of_quoted found
        exact ⟨code, content, encodes, (List.cons.inj taken).2.symm, (Except.ok.inj outcome).symm⟩
  · rintro ⟨code, content, encodes, rfl, rfl⟩
    rw [List.append_assoc, List.singleton_append, quoted_of_encodes mark encodes rest]
    exact ⟨rfl, rfl⟩

theorem ofNumeral_append_iff : ofNumeral (cs ++ rest) = ⟨cs, .ok kind⟩ ↔
    numeral (cs ++ rest) = cs ∧ kind = .number (String.ofList (cs.filter (· ≠ '_'))) := by
  rw [ofNumeral, Lexeme.mk.injEq]
  refine and_congr_right fun taken => ?_
  rw [taken, Except.ok.injEq, eq_comm]

theorem ofWord_append_iff : ofWord (cs ++ rest) = ⟨cs, .ok kind⟩ ↔
    ((cs = ['T', 'r', 'u', 'e'] ∧ kind = .trueWord) ∨
      (cs = ['F', 'a', 'l', 's', 'e'] ∧ kind = .falseWord)) ∧
        ∀ c ∈ rest.head?, isWordChar c = false := by
  have word_iff {word : String} : String.ofList cs = word ↔ cs = word.toList := by
    rw [← String.toList_inj, String.toList_ofList]
  rw [ofWord, Lexeme.mk.injEq, takeWhile_append_iff]
  constructor
  · rintro ⟨⟨each, ends⟩, outcome⟩
    rw [takeWhile_append_iff.mpr ⟨each, ends⟩] at outcome
    refine ⟨?_, ends⟩
    split at outcome
    · rename_i word
      exact .inl ⟨word_iff.mp word, (Except.ok.inj outcome).symm⟩
    · split at outcome
      · rename_i word
        exact .inr ⟨word_iff.mp word, (Except.ok.inj outcome).symm⟩
      · cases outcome
  · rintro ⟨word, ends⟩
    have each : ∀ c ∈ cs, isWordChar c = true := by
      rcases word with ⟨rfl, _⟩ | ⟨rfl, _⟩ <;> simp [isWordChar]
    refine ⟨⟨each, ends⟩, ?_⟩
    rw [takeWhile_append_iff.mpr ⟨each, ends⟩]
    rcases word with ⟨rfl, rfl⟩ | ⟨rfl, rfl⟩
    · exact if_pos (word_iff.mpr rfl)
    · rw [if_neg (mt word_iff.mp (by decide)), if_pos (word_iff.mpr rfl)]

theorem mark?_bare (mark : mark? c = some kind) :
    kind ≠ .eof ∧ (∀ content, kind ≠ .text content) ∧ (∀ digits, kind ≠ .number digits) ∧
      ∀ taken d, ¬ GoesOn taken d kind := by
  unfold mark? at mark
  split at mark
  all_goals cases mark
  all_goals exact ⟨nofun, nofun, nofun, fun _ _ => id⟩

theorem reads_mark (mark : mark? c = some kind) : Reads [c] kind rest :=
  ⟨c, [], rfl, by simp [read, mark]⟩

theorem spells_of_reads (reads : Reads taken kind rest) :
    Spells taken kind ∧ ∀ c ∈ rest.head?, ¬ GoesOn taken c kind := by
  obtain ⟨c, cs, rfl, read⟩ := reads
  unfold Lexeme.read at read
  split at read
  · rename_i found mark
    obtain ⟨rfl, rfl⟩ : cs = [] ∧ found = kind := by simpa [eq_comm] using read
    exact ⟨.mark mark, fun d _ => (mark?_bare mark).2.2.2 _ d⟩
  · split at read
    · rename_i mark
      obtain ⟨code, content, encodes, rfl, rfl⟩ := (ofQuoted_append_iff mark).mp read
      exact ⟨.text mark (by rwa [String.toList_ofList]), fun d _ => id⟩
    · split at read
      · rename_i starts
        rw [← List.cons_append] at read
        obtain ⟨taken, rfl⟩ := ofNumeral_append_iff.mp read
        obtain ⟨each, point, ends⟩ := numeral_append_iff.mp taken
        have begins : startsNumeral c cs = true :=
          startsNumeral_of_append starts fun d next => Bool.eq_false_iff.mpr fun digit =>
            ends d next (.inl digit)
        exact ⟨.number ⟨⟨c, cs, rfl, begins⟩, each, point⟩, ends⟩
      · split at read
        · rw [← List.cons_append] at read
          obtain ⟨⟨word, rfl⟩ | ⟨word, rfl⟩, ends⟩ := ofWord_append_iff.mp read
          · rw [word]
            exact ⟨.trueWord, by simpa [GoesOn] using ends⟩
          · rw [word]
            exact ⟨.falseWord, by simpa [GoesOn] using ends⟩
        · simp at read

theorem reads_of_spells (spells : Spells taken kind) (ends : ∀ c ∈ rest.head?, ¬ GoesOn taken c kind) :
    Reads taken kind rest := by
  cases spells with
  | mark mark => exact reads_mark mark
  | @text quote code content mark encodes =>
    refine ⟨quote, code ++ [quote], rfl, ?_⟩
    rw [read_quote mark]
    exact (ofQuoted_append_iff mark).mpr ⟨code, _, encodes, rfl, by rw [String.ofList_toList]⟩
  | number numeral =>
    obtain ⟨⟨c, cs, rfl, starts⟩, each, point⟩ := numeral
    refine ⟨c, cs, rfl, ?_⟩
    rw [read_numeral (startsNumeral_append starts rest), ← List.cons_append]
    exact ofNumeral_append_iff.mpr ⟨numeral_append_iff.mpr ⟨each, point, ends⟩, rfl⟩
  | trueWord =>
    have word := ofWord_append_iff.mpr ⟨.inl ⟨rfl, rfl⟩, by simpa [GoesOn] using ends⟩
    exact ⟨_, _, rfl, word⟩
  | falseWord =>
    have word := ofWord_append_iff.mpr ⟨.inr ⟨rfl, rfl⟩, by simpa [GoesOn] using ends⟩
    exact ⟨_, _, rfl, word⟩

theorem reads_iff : Reads taken kind rest ↔
    Spells taken kind ∧ ∀ c ∈ rest.head?, ¬ GoesOn taken c kind :=
  ⟨spells_of_reads, fun ⟨spells, ends⟩ => reads_of_spells spells ends⟩

theorem reads_text_iff {s : String} : Reads taken (.text s) rest ↔
    ∃ quote code, IsQuote quote ∧ Encodes quote code s.toList ∧ taken = quote :: (code ++ [quote]) := by
  constructor
  · intro reads
    cases (reads_iff.mp reads).1 with
    | mark mark => exact absurd rfl ((mark?_bare mark).2.1 s)
    | text mark encodes => exact ⟨_, _, mark, encodes, rfl⟩
  · rintro ⟨quote, code, mark, encodes, rfl⟩
    exact reads_of_spells (.text mark encodes) fun _ _ => id

theorem Reads.numeral {digits : String} (reads : Reads taken (.number digits) rest) :
    IsNumeral taken ∧ digits.toList = taken.filter (· ≠ '_') := by
  cases (reads_iff.mp reads).1 with
  | mark mark => exact absurd rfl ((mark?_bare mark).2.2.1 digits)
  | number numeral => exact ⟨numeral, String.toList_ofList⟩

theorem Reads.ne_nil (reads : Reads taken kind rest) : taken ≠ [] := by
  obtain ⟨c, cs, rfl, _⟩ := reads
  exact List.cons_ne_nil c cs

theorem Reads.kind_ne_eof (reads : Reads taken kind rest) : kind ≠ .eof := by
  cases (reads_iff.mp reads).1 with
  | mark mark => exact (mark?_bare mark).1
  | text | number | trueWord | falseWord => nofun

theorem Reads.cut {more : List Char} (reads : Reads taken kind (rest ++ more)) :
    Reads taken kind rest := by
  obtain ⟨spells, ends⟩ := reads_iff.mp reads
  refine reads_of_spells spells fun c next => ends c ?_
  cases rest with
  | nil => cases next
  | cons d rest => exact next

theorem not_isBlank_of_isNumeralChar (digit : isNumeralChar c = true) : Text.isBlank c = false := by
  simp only [isNumeralChar, Char.isDigit, Bool.or_eq_true, Bool.and_eq_true, decide_eq_true_eq] at digit
  rcases digit with ⟨low, high⟩ | rfl
  · exact Text.not_isBlank_of_visible (by grind) (by grind)
  · rfl

theorem not_isBlank_of_isWordChar (letter : isWordChar c = true) : Text.isBlank c = false := by
  simp only [isWordChar, Char.isAlphanum, Char.isAlpha, Char.isUpper, Char.isLower, Char.isDigit,
    Bool.or_eq_true, decide_eq_true_eq] at letter
  by_cases separator : c = '_'
  · subst separator
    rfl
  · exact Text.not_isBlank_of_visible (by grind) (by grind)

theorem not_goesOn_of_isBlank (blank : Text.isBlank c = true) : ¬ GoesOn taken c kind := by
  intro goesOn
  unfold GoesOn at goesOn
  split at goesOn
  · rcases goesOn with digit | ⟨rfl, _⟩
    · simp [not_isBlank_of_isNumeralChar digit] at blank
    · exact absurd blank (by decide)
  · simp [not_isBlank_of_isWordChar goesOn] at blank
  · simp [not_isBlank_of_isWordChar goesOn] at blank
  · exact goesOn

theorem not_isBlank_of_mark (mark : mark? c = some kind) : Text.isBlank c = false := by
  unfold mark? at mark
  split at mark
  all_goals cases mark
  all_goals rfl

theorem Spells.not_blank (spells : Spells taken kind)
    (outer : taken.head? = some c ∨ taken.getLast? = some c) : Text.isBlank c = false := by
  cases spells with
  | @mark d kind mark =>
    obtain rfl : d = c := by simpa using outer
    exact not_isBlank_of_mark mark
  | @text quote code content mark _ =>
    obtain rfl : quote = c := by
      rw [← List.cons_append, List.getLast?_concat] at outer
      simpa using outer
    rcases mark with rfl | rfl <;> rfl
  | number numeral =>
    rcases numeral.each c (outer.elim List.mem_of_head? List.mem_of_getLast?) with digit | rfl
    · exact not_isBlank_of_isNumeralChar digit
    · rfl
  | trueWord | falseWord => rcases outer with ⟨⟨⟩⟩ | ⟨⟨⟩⟩ <;> rfl

theorem Reads.not_blank (reads : Reads (c :: cs) kind rest) : Text.isBlank c = false :=
  (reads_iff.mp reads).1.not_blank (.inl rfl)

theorem Reads.head_inked (reads : Reads taken kind rest) :
    ∃ c cs, taken = c :: cs ∧ Text.isBlank c = false := by
  obtain ⟨c, cs, rfl⟩ := List.exists_cons_of_ne_nil reads.ne_nil
  exact ⟨c, cs, rfl, reads.not_blank⟩

theorem Reads.last_inked (reads : Reads taken kind rest) :
    ∃ cs c, taken = cs ++ [c] ∧ Text.isBlank c = false := by
  have last := List.getLast?_eq_some_getLast reads.ne_nil
  exact ⟨_, _, (List.dropLast_concat_getLast reads.ne_nil).symm,
    (reads_iff.mp reads).1.not_blank (.inr last)⟩

end Lexeme

end Terse
