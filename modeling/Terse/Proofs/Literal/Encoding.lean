import Terse.Literal.Lexeme

namespace Terse

def IsQuote (c : Char) : Prop :=
  c = '"' ∨ c = '\''

/-- Between quotes of this kind, these characters stand for that text. -/
inductive Encodes (quote : Char) : List Char → List Char → Prop where
  | nil : Encodes quote [] []
  | plain {c : Char} {code content : List Char} : c ≠ quote → c ≠ '\\' →
      Encodes quote code content → Encodes quote (c :: code) (c :: content)
  | newline {code content : List Char} :
      Encodes quote code content → Encodes quote ('\\' :: 'n' :: code) ('\n' :: content)
  | tab {code content : List Char} :
      Encodes quote code content → Encodes quote ('\\' :: 't' :: code) ('\t' :: content)
  | escaped {c : Char} {code content : List Char} : c = '\\' ∨ IsQuote c →
      Encodes quote code content → Encodes quote ('\\' :: c :: code) (c :: content)

theorem IsQuote.ne_backslash {quote : Char} (mark : IsQuote quote) : quote ≠ '\\' := by
  rcases mark with rfl | rfl <;> decide

theorem Encodes.of_plain {quote : Char} {content : List Char}
    (plain : ∀ c ∈ content, c ≠ quote ∧ c ≠ '\\') : Encodes quote content content := by
  induction content with
  | nil => exact .nil
  | cons c content ih =>
    have first := plain c (List.mem_cons_self ..)
    exact .plain first.1 first.2 (ih fun d mem => plain d (List.mem_cons_of_mem _ mem))

namespace Lexeme

theorem unescape?_eq_some_iff {c d : Char} : unescape? c = some d ↔
    (c = 'n' ∧ d = '\n') ∨ (c = 't' ∧ d = '\t') ∨ ((c = '\\' ∨ IsQuote c) ∧ d = c) := by
  unfold unescape? IsQuote
  split <;> grind

theorem quoted_cons {quote c : Char} (plain : c ≠ '\\') (cs : List Char) :
    quoted quote (c :: cs) =
      if c = quote then ([c], .ok [])
      else (c :: (quoted quote cs).1, (quoted quote cs).2.map (c :: ·)) := by
  rw [quoted]
  · rintro rfl
    exact absurd rfl plain
  · rintro d ds rfl
    exact absurd rfl plain

theorem quoted_escape {quote c d : Char} (escape : unescape? c = some d) (cs : List Char) :
    quoted quote ('\\' :: c :: cs) =
      ('\\' :: c :: (quoted quote cs).1, (quoted quote cs).2.map (d :: ·)) := by
  rw [quoted, escape]

/-- An encoding is read up to the quote behind it. -/
theorem quoted_of_encodes {quote : Char} {code content : List Char} (mark : IsQuote quote)
    (encodes : Encodes quote code content) (rest : List Char) :
    quoted quote (code ++ quote :: rest) = (code ++ [quote], .ok content) := by
  have escape {c d : Char} {code content : List Char} (made : unescape? c = some d)
      (ih : quoted quote (code ++ quote :: rest) = (code ++ [quote], .ok content)) :
      quoted quote ('\\' :: c :: code ++ quote :: rest) =
        ('\\' :: c :: code ++ [quote], .ok (d :: content)) := by
    rw [List.cons_append, List.cons_append, quoted_escape made, ih]
    rfl
  induction encodes with
  | nil => rw [List.nil_append, quoted_cons mark.ne_backslash, if_pos rfl, List.nil_append]
  | plain other plain _ ih =>
    rw [List.cons_append, quoted_cons plain, if_neg other, ih]
    rfl
  | newline _ ih => exact escape rfl ih
  | tab _ ih => exact escape rfl ih
  | escaped marked _ ih => exact escape (unescape?_eq_some_iff.mpr (.inr (.inr ⟨marked, rfl⟩))) ih

/-- What is read up to a quote is an encoding. -/
theorem encodes_of_quoted {quote : Char} {cs taken content : List Char}
    (read : quoted quote cs = (taken, .ok content)) :
    ∃ code, taken = code ++ [quote] ∧ Encodes quote code content := by
  fun_induction quoted quote cs generalizing taken content with
  | case1 | case2 | case4 => simp at read
  | case3 c cs d made inner outcome found ih =>
    cases outcome with
    | error fault => simp [Except.map] at read
    | ok s =>
      simp only [Except.map, Prod.mk.injEq, Except.ok.injEq] at read
      obtain ⟨rfl, rfl⟩ := read
      obtain ⟨code, rfl, encodes⟩ := ih found
      refine ⟨'\\' :: c :: code, rfl, ?_⟩
      rcases unescape?_eq_some_iff.mp made with ⟨rfl, rfl⟩ | ⟨rfl, rfl⟩ | ⟨marked, rfl⟩
      · exact .newline encodes
      · exact .tab encodes
      · exact .escaped marked encodes
  | case5 cs _ _ =>
    simp only [Prod.mk.injEq, Except.ok.injEq] at read
    obtain ⟨rfl, rfl⟩ := read
    exact ⟨[], rfl, .nil⟩
  | case6 c cs last escape other inner outcome found ih =>
    cases outcome with
    | error fault => simp [Except.map] at read
    | ok s =>
      simp only [Except.map, Prod.mk.injEq, Except.ok.injEq] at read
      obtain ⟨rfl, rfl⟩ := read
      obtain ⟨code, rfl, encodes⟩ := ih found
      refine ⟨c :: code, rfl, .plain other ?_ encodes⟩
      rintro rfl
      cases cs with
      | nil => exact last rfl rfl
      | cons d ds => exact escape d ds rfl rfl

end Lexeme

end Terse
