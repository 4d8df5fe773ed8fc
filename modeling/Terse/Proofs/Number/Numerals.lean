import Mathlib.Tactic.FieldSimp
import Terse.Proofs.Number.Expansion

namespace Terse.Decimal

def denoted (whole fraction : List Nat) : ℚ :=
  valueOf 10 whole + valueOf 10 fraction / 10 ^ fraction.length

theorem denoted_eq (whole fraction : List Nat) :
    denoted whole fraction = (valueOf 10 (whole ++ fraction) : ℚ) / 10 ^ fraction.length := by
  rw [denoted, valueOf_append]
  push_cast
  field_simp

theorem denoted_nil (whole : List Nat) : denoted whole [] = (valueOf 10 whole : Nat) := by
  simp [denoted, valueOf]

section Grammar

/-- How numerals are written: a digit, the minus, and the point. -/
structure Marks (α : Type) where
  digit : Nat → α
  minus : α
  point : α

variable {α β : Type}

/-- Digits with at most one point among or around them, and a digit somewhere. -/
inductive Magnitude (marks : Marks α) : List α → ℚ → Prop
  | whole {ds : List Nat} (nonempty : ds ≠ []) (small : ∀ d ∈ ds, d < 10) :
    Magnitude marks (ds.map marks.digit) (denoted ds [])
  | pointed {ds es : List Nat} (nonempty : ds ++ es ≠ []) (small : ∀ d ∈ ds ++ es, d < 10) :
    Magnitude marks (ds.map marks.digit ++ marks.point :: es.map marks.digit) (denoted ds es)

inductive Numeral (marks : Marks α) : List α → ℚ → Prop
  | plain {xs : List α} {q : ℚ} (magnitude : Magnitude marks xs q) : Numeral marks xs q
  | negative {xs : List α} {q : ℚ} (magnitude : Magnitude marks xs q) :
    Numeral marks (marks.minus :: xs) (-q)

/-- What is written in other marks, mark by mark. -/
structure Rewrites (f : α → β) (marks : Marks α) (others : Marks β) : Prop where
  digit : ∀ d < 10, others.digit d = f (marks.digit d)
  minus : others.minus = f marks.minus
  point : others.point = f marks.point

variable {f : α → β} {marks : Marks α} {others : Marks β} {ys : List β} {q : ℚ}

theorem Rewrites.digits (rewrites : Rewrites f marks others) {ds : List Nat}
    (small : ∀ d ∈ ds, d < 10) : ds.map others.digit = (ds.map marks.digit).map f := by
  rw [List.map_map]
  exact List.map_congr_left fun d mem => rewrites.digit d (small d mem)

theorem Rewrites.magnitude_iff (rewrites : Rewrites f marks others) :
    Magnitude others ys q ↔ ∃ xs, ys = xs.map f ∧ Magnitude marks xs q := by
  constructor
  · intro magnitude
    cases magnitude with
    | whole nonempty small => exact ⟨_, rewrites.digits small, .whole nonempty small⟩
    | pointed nonempty small =>
      obtain ⟨before, behind⟩ := List.forall_mem_append.mp small
      refine ⟨_, ?_, .pointed nonempty small⟩
      rw [rewrites.digits before, rewrites.digits behind, rewrites.point, List.map_append,
        List.map_cons]
  · rintro ⟨xs, rfl, magnitude⟩
    cases magnitude with
    | whole nonempty small =>
      rw [← rewrites.digits small]
      exact .whole nonempty small
    | pointed nonempty small =>
      obtain ⟨before, behind⟩ := List.forall_mem_append.mp small
      rw [List.map_append, List.map_cons, ← rewrites.digits before, ← rewrites.digits behind,
        ← rewrites.point]
      exact .pointed nonempty small

theorem Rewrites.numeral_iff (rewrites : Rewrites f marks others) :
    Numeral others ys q ↔ ∃ xs, ys = xs.map f ∧ Numeral marks xs q := by
  constructor
  · intro numeral
    cases numeral with
    | plain magnitude =>
      obtain ⟨xs, rfl, inner⟩ := rewrites.magnitude_iff.mp magnitude
      exact ⟨xs, rfl, .plain inner⟩
    | negative magnitude =>
      obtain ⟨xs, rfl, inner⟩ := rewrites.magnitude_iff.mp magnitude
      exact ⟨marks.minus :: xs, by rw [rewrites.minus, List.map_cons], .negative inner⟩
  · rintro ⟨xs, rfl, numeral⟩
    cases numeral with
    | plain magnitude => exact .plain (rewrites.magnitude_iff.mpr ⟨_, rfl, magnitude⟩)
    | negative magnitude =>
      rw [List.map_cons, ← rewrites.minus]
      exact .negative (rewrites.magnitude_iff.mpr ⟨_, rfl, magnitude⟩)

end Grammar

section Characters

variable {cs whole fraction : List Char} {ds es : List Nat} {q : ℚ}

def charMarks : Marks Char :=
  ⟨Nat.digitChar, '-', '.'⟩

theorem unsigned?_eq_some_iff_parts (front : cs.takeWhile (· ≠ '.') = whole)
    (back : (cs.dropWhile (· ≠ '.')).drop 1 = fraction) :
    unsigned? cs = some q ↔ whole ++ fraction ≠ [] ∧ (∀ c ∈ whole ++ fraction, c.isDigit = true) ∧
      (valueOf 10 ((whole ++ fraction).map digitValue) : ℚ) / 10 ^ fraction.length = q := by
  have nothing_iff : (whole.isEmpty && fraction.isEmpty) = true ↔ whole ++ fraction = [] := by simp
  simp only [unsigned?, front, back]
  split
  case isTrue nothing =>
    have empty := nothing_iff.mp nothing
    simp [empty]
  case isFalse something =>
    have nonempty := mt nothing_iff.mpr something
    rw [← List.all_eq_true]
    split
    case isTrue digits =>
      rw [Rat.mkRat_eq_div]
      simp [nonempty, digits]
    case isFalse other =>
      simp [other]

theorem forall_ne_point (plain : '.' ∉ cs) : ∀ c ∈ cs, decide (c ≠ '.') = true := by
  intro c mem
  exact decide_eq_true fun point => plain (point ▸ mem)

theorem parts_plain (plain : '.' ∉ cs) :
    cs.takeWhile (· ≠ '.') = cs ∧ (cs.dropWhile (· ≠ '.')).drop 1 = [] := by
  have others := forall_ne_point plain
  rw [List.takeWhile_eq_self_iff.mpr others, List.dropWhile_eq_nil_iff.mpr others]
  exact ⟨rfl, rfl⟩

theorem parts_pointed (plain : '.' ∉ whole) (fraction : List Char) :
    (whole ++ '.' :: fraction).takeWhile (· ≠ '.') = whole ∧
      ((whole ++ '.' :: fraction).dropWhile (· ≠ '.')).drop 1 = fraction := by
  have others := forall_ne_point plain
  rw [List.takeWhile_append_of_pos others, List.dropWhile_append_of_pos others]
  simp

theorem unsigned?_sound (read : unsigned? cs = some q) : Magnitude charMarks cs q := by
  by_cases pointed : '.' ∈ cs
  · obtain ⟨whole, fraction, rfl, plain⟩ := List.eq_append_cons_of_mem pointed
    obtain ⟨front, back⟩ := parts_pointed plain fraction
    obtain ⟨nonempty, digits, rfl⟩ := (unsigned?_eq_some_iff_parts front back).mp read
    rw [List.forall_mem_append] at digits
    obtain ⟨ds, small, rfl⟩ := exists_digits digits.1
    obtain ⟨es, small', rfl⟩ := exists_digits digits.2
    rw [List.map_append, map_digitValue small, map_digitValue small', List.length_map, ← denoted_eq]
    exact .pointed (by simpa using nonempty) (List.forall_mem_append.mpr ⟨small, small'⟩)
  · obtain ⟨front, back⟩ := parts_plain pointed
    obtain ⟨nonempty, digits, rfl⟩ := (unsigned?_eq_some_iff_parts front back).mp read
    rw [List.append_nil] at nonempty digits ⊢
    obtain ⟨ds, small, rfl⟩ := exists_digits digits
    rw [map_digitValue small, List.length_nil, pow_zero, div_one, ← denoted_nil]
    exact .whole (by simpa using nonempty) small

theorem point_not_mem_digits (small : ∀ d ∈ ds, d < 10) : '.' ∉ ds.map Nat.digitChar := by
  intro mem
  have digit := isDigit_of_mem_map small mem
  simp at digit

theorem unsigned?_complete (magnitude : Magnitude charMarks cs q) : unsigned? cs = some q := by
  cases magnitude with
  | @whole ds nonempty small =>
    obtain ⟨front, back⟩ := parts_plain (point_not_mem_digits small)
    refine (unsigned?_eq_some_iff_parts front back).mpr ⟨by simpa using nonempty, ?_, ?_⟩
    · rw [List.append_nil]
      exact fun c => isDigit_of_mem_map small
    · rw [List.append_nil, map_digitValue small, List.length_nil, pow_zero, div_one, denoted_nil]
  | @pointed ds es nonempty small =>
    obtain ⟨before, _⟩ := List.forall_mem_append.mp small
    obtain ⟨front, back⟩ := parts_pointed (point_not_mem_digits before) (es.map Nat.digitChar)
    refine (unsigned?_eq_some_iff_parts front back).mpr ⟨by simpa using nonempty, ?_, ?_⟩
    · rw [← List.map_append]
      exact fun c => isDigit_of_mem_map small
    · rw [← List.map_append, map_digitValue small, List.length_map, denoted_eq]

theorem Magnitude.digit_or_point (magnitude : Magnitude charMarks cs q) :
    ∀ c ∈ cs, c.isDigit = true ∨ c = '.' := by
  cases magnitude with
  | whole _ small => exact fun c mem => .inl (isDigit_of_mem_map small mem)
  | pointed _ small =>
    obtain ⟨before, behind⟩ := List.forall_mem_append.mp small
    refine List.forall_mem_append.mpr ⟨fun c mem => .inl (isDigit_of_mem_map before mem), ?_⟩
    exact List.forall_mem_cons.mpr ⟨.inr rfl, fun c mem => .inl (isDigit_of_mem_map behind mem)⟩

theorem Magnitude.exists_digit (magnitude : Magnitude charMarks cs q) : ∃ c ∈ cs, c.isDigit = true := by
  have written {ds : List Nat} {d : Nat} (small : ∀ d ∈ ds, d < 10) (mem : d ∈ ds) :
      Nat.digitChar d ∈ ds.map Nat.digitChar ∧ (Nat.digitChar d).isDigit = true :=
    ⟨List.mem_map_of_mem mem, (digitChar_of_lt (small d mem)).1⟩
  cases magnitude with
  | @whole ds nonempty small =>
    obtain ⟨d, mem⟩ := List.exists_mem_of_ne_nil ds nonempty
    exact ⟨_, written small mem⟩
  | @pointed ds es nonempty small =>
    obtain ⟨d, mem⟩ := List.exists_mem_of_ne_nil (ds ++ es) nonempty
    obtain ⟨inside, digit⟩ := written small mem
    rw [List.map_append] at inside
    refine ⟨_, List.mem_append.mpr ?_, digit⟩
    exact (List.mem_append.mp inside).imp_right (List.mem_cons_of_mem _)

theorem Magnitude.count_point_le (magnitude : Magnitude charMarks cs q) : cs.count '.' ≤ 1 := by
  have pointless {ds : List Nat} (small : ∀ d ∈ ds, d < 10) : (ds.map Nat.digitChar).count '.' = 0 :=
    List.count_eq_zero.mpr (point_not_mem_digits small)
  cases magnitude with
  | whole _ small =>
    change (List.map Nat.digitChar _).count '.' ≤ 1
    rw [pointless small]
    exact Nat.zero_le 1
  | pointed _ small =>
    obtain ⟨before, behind⟩ := List.forall_mem_append.mp small
    change (List.map Nat.digitChar _ ++ '.' :: List.map Nat.digitChar _).count '.' ≤ 1
    rw [List.count_append, List.count_cons_self, pointless before, pointless behind]

theorem exists_magnitude_iff : (∃ q, Magnitude charMarks cs q) ↔
    (∀ c ∈ cs, c.isDigit = true ∨ c = '.') ∧ cs.count '.' ≤ 1 ∧ ∃ c ∈ cs, c.isDigit = true := by
  have digits {cs : List Char} (each : ∀ c ∈ cs, c.isDigit = true ∨ c = '.') (plain : '.' ∉ cs) :
      ∃ ds : List Nat, (∀ d ∈ ds, d < 10) ∧ ds.map Nat.digitChar = cs := by
    refine exists_digits fun c mem => (each c mem).resolve_right ?_
    rintro rfl
    exact plain mem
  constructor
  · rintro ⟨q, magnitude⟩
    exact ⟨magnitude.digit_or_point, magnitude.count_point_le, magnitude.exists_digit⟩
  · rintro ⟨each, single, c, mem, digit⟩
    by_cases pointed : '.' ∈ cs
    · obtain ⟨whole, fraction, rfl, plain⟩ := List.eq_append_cons_of_mem pointed
      obtain ⟨before, behind⟩ := List.forall_mem_append.mp each
      have plain' : '.' ∉ fraction := by
        rw [List.count_append, List.count_cons_self] at single
        exact List.count_eq_zero.mp (by omega)
      obtain ⟨ds, small, rfl⟩ := digits before plain
      obtain ⟨es, small', rfl⟩ := digits (List.forall_mem_cons.mp behind).2 plain'
      refine ⟨_, .pointed ?_ (List.forall_mem_append.mpr ⟨small, small'⟩)⟩
      rintro nothing
      obtain ⟨rfl, rfl⟩ := List.append_eq_nil_iff.mp nothing
      obtain rfl : c = '.' := by simpa using mem
      simp at digit
    · obtain ⟨ds, small, rfl⟩ := digits each pointed
      refine ⟨_, .whole ?_ small⟩
      rintro rfl
      cases mem

theorem Magnitude.unsigned {c : Char} (magnitude : Magnitude charMarks (c :: cs) q) :
    c ≠ '-' ∧ c ≠ '+' := by
  have first := magnitude.digit_or_point c List.mem_cons_self
  constructor
  · rintro rfl
    simp at first
  · rintro rfl
    simp at first

/-- A text is read as a number exactly if it is the magnitude, behind a minus or a plus or neither. -/
theorem parse?_eq_some_iff : parse? cs = some q ↔
    Numeral charMarks cs q ∨ ∃ rest, cs = '+' :: rest ∧ Magnitude charMarks rest q := by
  constructor
  · intro read
    unfold parse? at read
    split at read
    · obtain ⟨p, magnitude, rfl⟩ := Option.map_eq_some_iff.mp read
      exact .inl (.negative (unsigned?_sound magnitude))
    · exact .inr ⟨_, rfl, unsigned?_sound read⟩
    · exact .inl (.plain (unsigned?_sound read))
  · rintro ((magnitude | magnitude) | ⟨rest, rfl, magnitude⟩)
    · cases cs with
      | nil => exact unsigned?_complete magnitude
      | cons c rest =>
        obtain ⟨minus, plus⟩ := magnitude.unsigned
        rw [parse?, unsigned?_complete magnitude]
        · rintro _ ⟨⟩
          exact minus rfl
        · rintro _ ⟨⟩
          exact plus rfl
    · exact Option.map_eq_some_iff.mpr ⟨_, unsigned?_complete magnitude, rfl⟩
    · exact unsigned?_complete magnitude

end Characters

theorem parse?_of_isDigit {c : Char} {cs : List Char} (digit : c.isDigit = true) :
    parse? (c :: cs) = unsigned? (c :: cs) := by
  have minus : c ≠ '-' := by
    rintro rfl
    simp at digit
  have plus : c ≠ '+' := by
    rintro rfl
    simp at digit
  simp [parse?, minus, plus]

theorem parse?_natText (n : Nat) : parse? (natText n).toList = some (n : ℚ) := by
  have whole : Magnitude charMarks (natText n).toList (denoted (digits 10 n) []) := by
    rw [toList_natText]
    exact .whole (digits_ne_nil (by decide) n) fun _ => lt_of_mem_digits (by decide)
  have value : denoted (digits 10 n) [] = n := by
    rw [denoted_nil, valueOf_digits (by decide)]
  exact parse?_eq_some_iff.mpr (.inl (.plain (value ▸ whole)))

end Terse.Decimal
