import Terse.Proofs.Number.Rendering

namespace Terse.Decimal

section Items

variable {store : Store} {item : Value} {items : List Value} {cs : List Char} {c : Char} {q : ℚ}

/-- Digits as numbers; the minus and the point as texts. -/
def itemMarks : Marks Value :=
  ⟨fun d => .number d, .text "-", .text "."⟩

def IsMark (item : Value) : Prop :=
  (∃ d : Nat, d < 10 ∧ item = .number d) ∨ item = .text "-" ∨ item = .text "."

def IsMarkChar (c : Char) : Prop :=
  c.isDigit = true ∨ c = '-' ∨ c = '.'

theorem itemOf_digitChar {d : Nat} (small : d < 10) : itemOf (Nat.digitChar d) = .number d := by
  obtain ⟨digit, value⟩ := digitChar_of_lt small
  rw [itemOf, if_pos digit, value]

theorem rewrites_itemOf : Rewrites itemOf charMarks itemMarks where
  digit _ small := (itemOf_digitChar small).symm
  minus := rfl
  point := rfl

theorem isMark_iff : IsMark item ↔ ∃ c, IsMarkChar c ∧ item = itemOf c := by
  constructor
  · rintro (⟨d, small, rfl⟩ | rfl | rfl)
    · exact ⟨_, .inl (digitChar_of_lt small).1, (itemOf_digitChar small).symm⟩
    · exact ⟨'-', .inr (.inl rfl), rfl⟩
    · exact ⟨'.', .inr (.inr rfl), rfl⟩
  · rintro ⟨c, digit | rfl | rfl, rfl⟩
    · rw [itemOf, if_pos digit]
      exact .inl ⟨_, (digitChar_digitValue digit).1, rfl⟩
    · exact .inr (.inl rfl)
    · exact .inr (.inr rfl)

theorem charOf?_itemOf (mark : IsMarkChar c) : charOf? (itemOf c) = some c := by
  rcases mark with digit | rfl | rfl
  · obtain ⟨small, char⟩ := digitChar_digitValue digit
    rw [itemOf, if_pos digit]
    simp [charOf?, Value.integer?, small, char]
  · rfl
  · rfl

theorem isMark_of_charOf? (found : charOf? item = some c) : IsMark item := by
  unfold charOf? at found
  split at found
  case h_1 s =>
    split at found
    case isTrue minus => exact .inr (.inl (congrArg Value.text minus))
    case isFalse =>
      split at found
      case isTrue point => exact .inr (.inr (congrArg Value.text point))
      case isFalse => cases found
  case h_2 =>
    split at found
    case h_1 d whole =>
      split at found
      case isTrue range =>
        left
        refine ⟨d.toNat, by omega, ?_⟩
        cases item with
        | number q =>
          obtain ⟨integer, rfl⟩ : q.den = 1 ∧ q.num = d := by simpa [Value.integer?] using whole
          have cast : ((q.num.toNat : Int) : ℚ) = q.num := by rw [Int.toNat_of_nonneg range.1]
          rw [Value.number.injEq, ← Int.cast_natCast, cast, Rat.coe_int_num_of_den_eq_one integer]
        | _ => cases whole
      case isFalse => cases found
    case h_2 => cases found

theorem charsOf_itemOf (each : ∀ c ∈ cs, IsMarkChar c) :
    charsOf store (cs.map itemOf) = .ok cs := by
  induction cs with
  | nil => rfl
  | cons c cs ih =>
    rw [List.forall_mem_cons] at each
    rw [List.map_cons, charsOf, charOf?_itemOf each.1, ih each.2]
    rfl

theorem marks_or_refused (store : Store) (items : List Value) :
    (∃ cs : List Char, items = cs.map itemOf ∧ ∀ c ∈ cs, IsMarkChar c) ∨
      (∃ item ∈ items, ¬ IsMark item) ∧
        ∃ e, charsOf store items = .error e ∧ e.kind = .typeMismatch := by
  induction items with
  | nil => exact .inl ⟨[], rfl, by simp⟩
  | cons item items ih =>
    by_cases mark : IsMark item
    · obtain ⟨c, char, rfl⟩ := isMark_iff.mp mark
      rcases ih with ⟨cs, rfl, each⟩ | ⟨⟨other, inside, bad⟩, e, refused, kind⟩
      · exact .inl ⟨c :: cs, rfl, List.forall_mem_cons.mpr ⟨char, each⟩⟩
      · right
        refine ⟨⟨other, List.mem_cons_of_mem _ inside, bad⟩, e, ?_, kind⟩
        rw [charsOf, charOf?_itemOf char, refused]
        rfl
    · right
      have unknown : charOf? item = none :=
        Option.eq_none_iff_forall_ne_some.mpr fun c found => mark (isMark_of_charOf? found)
      refine ⟨⟨item, List.mem_cons_self, mark⟩, .notADigit (store.display item), ?_, rfl⟩
      rw [charsOf, unknown]

/-- Digit lists hold no plus, so theirs is the grammar without one. -/
theorem parse?_eq_some_iff_numeral (each : ∀ c ∈ cs, IsMarkChar c) :
    parse? cs = some q ↔ Numeral charMarks cs q := by
  rw [parse?_eq_some_iff]
  refine or_iff_left ?_
  rintro ⟨rest, rfl, _⟩
  have plus := each '+' List.mem_cons_self
  simp [IsMarkChar] at plus

theorem ofItems_itemOf (each : ∀ c ∈ cs, IsMarkChar c) :
    ofItems store (cs.map itemOf) =
      match parse? cs with
      | some q => .ok q
      | none => .error (.notANumber (String.ofList cs)) := by
  cases read : parse? cs with
  | none => simp only [ofItems, charsOf_itemOf each, read]
  | some q => simp only [ofItems, charsOf_itemOf each, read]

theorem Numeral.isMarkChar (numeral : Numeral charMarks cs q) : ∀ c ∈ cs, IsMarkChar c := by
  cases numeral with
  | plain magnitude => exact fun c mem => (magnitude.digit_or_point c mem).imp id .inr
  | negative magnitude =>
    exact List.forall_mem_cons.mpr
      ⟨.inr (.inl rfl), fun c mem => (magnitude.digit_or_point c mem).imp id .inr⟩

theorem ofItems_ok_iff : ofItems store items = .ok q ↔ Numeral itemMarks items q := by
  constructor
  · intro read
    rcases marks_or_refused store items with ⟨cs, rfl, each⟩ | ⟨_, e, refused, _⟩
    · rw [ofItems_itemOf each] at read
      split at read
      case h_1 p found =>
        obtain rfl := Except.ok.inj read
        have numeral := (parse?_eq_some_iff_numeral each).mp found
        exact rewrites_itemOf.numeral_iff.mpr ⟨cs, rfl, numeral⟩
      case h_2 => cases read
    · rw [ofItems, refused] at read
      cases read
  · intro numeral
    obtain ⟨cs, rfl, inner⟩ := rewrites_itemOf.numeral_iff.mp numeral
    have each := inner.isMarkChar
    rw [ofItems_itemOf each, (parse?_eq_some_iff_numeral each).mpr inner]

theorem isMark_of_map (each : ∀ c ∈ cs, IsMarkChar c) : ∀ item ∈ cs.map itemOf, IsMark item := by
  intro item mem
  obtain ⟨c, inside, rfl⟩ := List.mem_map.mp mem
  exact isMark_iff.mpr ⟨c, each c inside, rfl⟩

theorem ofItems_type_iff : (∃ e, ofItems store items = .error e ∧ e.kind = .typeMismatch) ↔
    ∃ item ∈ items, ¬ IsMark item := by
  rcases marks_or_refused store items with ⟨cs, rfl, each⟩ | ⟨bad, e, refused, kind⟩
  · refine iff_of_false ?_ ?_
    · rintro ⟨e, failed, kind⟩
      rw [ofItems_itemOf each] at failed
      split at failed
      · cases failed
      · cases failed
        cases kind
    · rintro ⟨item, mem, bad⟩
      exact bad (isMark_of_map each item mem)
  · refine iff_of_true ⟨e, ?_, kind⟩ bad
    rw [ofItems, refused]

theorem ofItems_domain_iff : (∃ e, ofItems store items = .error e ∧ e.kind = .domain) ↔
    (∀ item ∈ items, IsMark item) ∧ ¬ ∃ q, Numeral itemMarks items q := by
  rcases marks_or_refused store items with ⟨cs, rfl, each⟩ | ⟨⟨item, mem, bad⟩, e, refused, kind⟩
  · rw [and_iff_right (isMark_of_map each)]
    have read_iff (q : ℚ) : ofItems store (cs.map itemOf) = .ok q ↔
        Numeral itemMarks (cs.map itemOf) q := ofItems_ok_iff
    simp only [← read_iff, ofItems_itemOf each]
    cases parse? cs with
    | none => simp [Failure.kind]
    | some q => simp
  · refine iff_of_false ?_ fun marks => bad (marks.1 item mem)
    rintro ⟨e', failed, kind'⟩
    rw [ofItems, refused] at failed
    cases failed
    rw [kind] at kind'
    cases kind'

theorem isMarkChar_chars (n : ℚ) : ∀ c ∈ chars n, IsMarkChar c := by
  have magnitude := unsigned?_sound (unsigned?_unsignedChars n)
  by_cases minus : ShowsMinus n
  · rw [chars_of_minus n minus]
    exact Numeral.isMarkChar (.negative magnitude)
  · rw [chars_of_not_minus n minus]
    exact Numeral.isMarkChar (.plain magnitude)

theorem ofItems_items (store : Store) (n : ℚ) :
    ofItems store (Decimal.items n) = .ok (shownValue n) := by
  rw [Decimal.items, ofItems_itemOf (isMarkChar_chars n), parse?_chars]

end Items

/-- Items are refused for their type exactly if one of them is neither a decimal digit nor a minus nor
a point. All others are read exactly if they form a numeral, as the number that it denotes, and are
outside the domain if they form none. The digits of a number are read as the number if its expansion
ends, so that its digits come out again, and else as the number cut at sixteen places. -/
theorem digit_lists_exact (store : Store) :
    (∀ xs, (∃ e, ofItems store xs = .error e ∧ e.kind = .typeMismatch) ↔
      ∃ item ∈ xs, ¬ IsMark item) ∧
    (∀ xs q, ofItems store xs = .ok q ↔ Numeral itemMarks xs q) ∧
    (∀ xs, (∃ e, ofItems store xs = .error e ∧ e.kind = .domain) ↔
      (∀ item ∈ xs, IsMark item) ∧ ¬ ∃ q, Numeral itemMarks xs q) ∧
    (∀ n : ℚ, Ending n.den → ofItems store (items n) = .ok n) ∧
    (∀ n : ℚ, ¬ Ending n.den → ofItems store (items n) = .ok (truncate (n * 10 ^ 16) / 10 ^ 16)) ∧
    (∀ n : ℚ, Ending n.den → ∃ r, ofItems store (items n) = .ok r ∧ items r = items n) := by
  have ending : ∀ n : ℚ, Ending n.den → ofItems store (items n) = .ok n := by
    intro n ending
    rw [ofItems_items, shownValue_of_ending n ending]
  refine ⟨fun xs => ofItems_type_iff, fun xs q => ofItems_ok_iff, fun xs => ofItems_domain_iff,
    ending, fun n unending => ?_, fun n ends => ⟨n, ending n ends, rfl⟩⟩
  rw [ofItems_items, shownValue_of_not_ending n unending]

end Terse.Decimal
