import Mathlib.Data.Nat.Cast.Field
import Mathlib.Data.Rat.Lemmas
import Terse.Proofs.Number.Numerals
import Terse.Value.View

namespace Terse

theorem truncate_div {b : Nat} (positive : 0 < b) (a : Int) : truncate (a / b) = a.tdiv b := by
  have cross : ((a : ℚ) / b).num * b = a * ((a : ℚ) / b).den := by
    have quotient := Rat.num_div_den ((a : ℚ) / b)
    have b_ne : (b : ℚ) ≠ 0 := by positivity
    have den_ne : (((a : ℚ) / b).den : ℚ) ≠ 0 := by simp
    rw [div_eq_div_iff den_ne b_ne] at quotient
    exact_mod_cast quotient
  have den_pos : (0 : Int) < ((a : ℚ) / b).den := by positivity
  have b_pos : (0 : Int) < b := by positivity
  rw [truncate, ← Int.mul_tdiv_mul_of_pos_left _ _ b_pos, cross, Int.mul_comm _ (b : Int),
    Int.mul_tdiv_mul_of_pos_left _ _ den_pos]

theorem digitChar_eq_zero_iff {d : Nat} (lt : d < 10) : Nat.digitChar d = '0' ↔ d = 0 := by
  have each : ∀ d < 10, Nat.digitChar d = '0' ↔ d = 0 := by decide
  exact each d lt

namespace Decimal

def written (whole fraction : List Nat) : List Char :=
  whole.map Nat.digitChar ++ if fraction.isEmpty then [] else '.' :: fraction.map Nat.digitChar

/-- An optional minus, digits without needless zeros in front, and after a point, if there is one,
digits without needless zeros at the end. -/
def Canonical (cs : List Char) : Prop :=
  ∃ sign whole fraction : List Char, cs = sign ++ whole ++ fraction ∧
    (sign = [] ∨ sign = ['-']) ∧
    whole ≠ [] ∧ (∀ c ∈ whole, c.isDigit) ∧ (whole = ['0'] ∨ whole.head? ≠ some '0') ∧
    (fraction = [] ∨ ∃ places, fraction = '.' :: places ∧ places ≠ [] ∧
      (∀ c ∈ places, c.isDigit) ∧ places.getLast? ≠ some '0')

section Written

variable {whole fraction : List Nat}

theorem head?_written (fraction : List Nat) (nonempty : whole ≠ [])
    (small : ∀ d ∈ whole, d < 10) :
    ∃ c cs, written whole fraction = c :: cs ∧ c.isDigit = true := by
  obtain ⟨d, ds, rfl⟩ := List.exists_cons_of_ne_nil nonempty
  refine ⟨Nat.digitChar d, _, rfl, (digitChar_of_lt (small d ?_)).1⟩
  simp

theorem parse?_written (fraction : List Nat) (nonempty : whole ≠ [])
    (small : ∀ d ∈ whole, d < 10) :
    parse? (written whole fraction) = unsigned? (written whole fraction) := by
  obtain ⟨c, cs, front, digit⟩ := head?_written fraction nonempty small
  rw [front]
  exact parse?_of_isDigit digit

theorem unsigned?_written (nonempty : whole ≠ []) (small : ∀ d ∈ whole, d < 10)
    (small' : ∀ d ∈ fraction, d < 10) :
    unsigned? (written whole fraction) =
      some ((valueOf 10 (whole ++ fraction) : ℚ) / 10 ^ fraction.length) := by
  rw [← denoted_eq]
  apply unsigned?_complete
  cases fraction with
  | nil =>
    rw [written, List.isEmpty_nil, if_pos rfl, List.append_nil]
    exact .whole nonempty small
  | cons d ds =>
    exact .pointed (by simp) (List.forall_mem_append.mpr ⟨small, small'⟩)

structure Tidy (whole fraction : List Nat) : Prop where
  nonempty : whole ≠ []
  small : ∀ d ∈ whole, d < 10
  small' : ∀ d ∈ fraction, d < 10
  front : whole = [0] ∨ whole.head? ≠ some 0
  back : fraction.getLast? ≠ some 0

theorem canonical_written {sign : List Char} (signed : sign = [] ∨ sign = ['-'])
    (tidy : Tidy whole fraction) : Canonical (sign ++ written whole fraction) := by
  obtain ⟨nonempty, small, small', front, back⟩ := tidy
  refine ⟨sign, whole.map Nat.digitChar, _, (List.append_assoc _ _ _).symm, signed,
    by simpa using nonempty, fun c => isDigit_of_mem_map small, ?_, ?_⟩
  · rcases front with rfl | front
    · exact .inl rfl
    · right
      obtain ⟨d, ds, rfl⟩ := List.exists_cons_of_ne_nil nonempty
      intro zero
      apply front
      rw [List.map_cons, List.head?_cons, Option.some.injEq] at zero
      rw [List.head?_cons, (digitChar_eq_zero_iff (small d (by simp))).mp zero]
  · cases fraction using List.reverseRecOn with
    | nil => exact .inl rfl
    | append_singleton ds d =>
      refine .inr ⟨(ds ++ [d]).map Nat.digitChar, by simp, by simp,
        fun c => isDigit_of_mem_map small', ?_⟩
      intro zero
      apply back
      rw [List.map_append, List.map_singleton, List.getLast?_concat, Option.some.injEq] at zero
      rw [List.getLast?_concat, (digitChar_eq_zero_iff (small' d (by simp))).mp zero]

end Written

/-! What is written of a quotient. -/

def cut (count m den : Nat) : ℚ :=
  (m * 10 ^ count / den : ℕ) / 10 ^ count

section Cut

variable {m den count : Nat}

theorem cut_of_dvd (positive : 0 < den) (divides : den ∣ m * 10 ^ count) :
    cut count m den = (m : ℚ) / den := by
  have den_ne : (den : ℚ) ≠ 0 := by positivity
  rw [cut, Nat.cast_div divides den_ne, Nat.cast_mul, Nat.cast_pow]
  field_simp
  norm_num

/-- The whole part and the places of the rest denote the quotient, as far as division has gone. -/
theorem value_places (positive : 0 < den) (m limit : Nat) :
    (valueOf 10 (digits 10 (m / den) ++ places den limit (m % den)) : ℚ) /
      10 ^ (places den limit (m % den)).length = cut limit m den := by
  obtain ⟨value, stopped⟩ := valueOf_places limit (Nat.mod_lt m positive)
  have short := length_places_le den limit (m % den)
  rw [valueOf_append, valueOf_digits (by decide), value]
  generalize (places den limit (m % den)).length = count at stopped short ⊢
  have split : m * 10 ^ count = m % den * 10 ^ count + den * (m / den * 10 ^ count) := by
    have divided := Nat.div_add_mod m den
    calc m * 10 ^ count = (den * (m / den) + m % den) * 10 ^ count := by rw [divided]
      _ = _ := by ring
  have joined : m / den * 10 ^ count + m % den * 10 ^ count / den = m * 10 ^ count / den := by
    rw [split, Nat.add_mul_div_left _ _ positive, Nat.add_comm]
  rw [joined]
  change cut count m den = cut limit m den
  rcases stopped with rfl | divided
  · rfl
  · have divides : den ∣ m * 10 ^ count := by
      rw [split]
      exact (Nat.dvd_of_mod_eq_zero divided).add (Nat.dvd_mul_right _ _)
    have divides' : den ∣ m * 10 ^ limit := by
      obtain ⟨more, rfl⟩ := Nat.exists_eq_add_of_le short
      rw [Nat.pow_add, ← Nat.mul_assoc]
      exact divides.mul_right _
    rw [cut_of_dvd positive divides, cut_of_dvd positive divides']

theorem value_dropFinalZeros (whole ds : List Nat) :
    (valueOf 10 (whole ++ dropFinalZeros ds) : ℚ) / 10 ^ (dropFinalZeros ds).length =
      valueOf 10 (whole ++ ds) / 10 ^ ds.length := by
  obtain ⟨count, zeros⟩ := exists_zeros ds
  generalize dropFinalZeros ds = kept at zeros ⊢
  subst zeros
  rw [← List.append_assoc, valueOf_append 10 (whole ++ kept), valueOf_replicate_zero,
    List.length_append, List.length_replicate]
  push_cast
  field_simp
  ring

end Cut

def keptPlaces (q : ℚ) : Nat :=
  if terminates q.den then q.den.log2 else placeLimit

section Chars

variable (q : ℚ)

theorem fractionPlaces_eq :
    fractionPlaces q = dropFinalZeros (places q.den (keptPlaces q) (q.num.natAbs % q.den)) :=
  rfl

theorem lt_of_mem_fractionPlaces {d : Nat} (mem : d ∈ fractionPlaces q) : d < 10 := by
  rw [fractionPlaces_eq] at mem
  exact lt_of_mem_places (Nat.mod_lt _ q.pos) (mem_of_mem_dropFinalZeros mem)

theorem value_fractionPlaces :
    (valueOf 10 (digits 10 (q.num.natAbs / q.den) ++ fractionPlaces q) : ℚ) /
      10 ^ (fractionPlaces q).length = cut (keptPlaces q) q.num.natAbs q.den := by
  rw [fractionPlaces_eq, value_dropFinalZeros, value_places q.pos]

def unsignedChars : List Char :=
  written (digits 10 (q.num.natAbs / q.den)) (fractionPlaces q)

theorem parse?_unsignedChars : parse? (unsignedChars q) = unsigned? (unsignedChars q) :=
  parse?_written _ (digits_ne_nil (by decide) _) fun _ => lt_of_mem_digits (by decide)

theorem head?_unsignedChars : ∃ c cs, unsignedChars q = c :: cs ∧ c.isDigit = true :=
  head?_written _ (digits_ne_nil (by decide) _) fun _ => lt_of_mem_digits (by decide)

theorem unsigned?_unsignedChars :
    unsigned? (unsignedChars q) = some (cut (keptPlaces q) q.num.natAbs q.den) := by
  rw [unsignedChars, unsigned?_written (digits_ne_nil (by decide) _)
    (fun _ => lt_of_mem_digits (by decide)) (fun _ => lt_of_mem_fractionPlaces q),
    value_fractionPlaces]

def ShowsMinus : Prop :=
  q.num < 0 ∧ ¬ (q.num.natAbs / q.den = 0 ∧ fractionPlaces q = [])

theorem showsMinus_iff :
    (q.num < 0 && !(q.num.natAbs / q.den = 0 && (fractionPlaces q).isEmpty)) = true ↔
      ShowsMinus q := by
  simp only [ShowsMinus, Bool.and_eq_true, decide_eq_true_eq, Bool.not_eq_true', ← Bool.not_eq_true,
    List.isEmpty_iff]

theorem chars_of_minus (minus : ShowsMinus q) : chars q = '-' :: unsignedChars q := by
  have sign := (showsMinus_iff q).mpr minus
  simp only [chars, sign, if_true, unsignedChars, written, List.append_assoc]
  rfl

theorem chars_of_not_minus (plain : ¬ ShowsMinus q) : chars q = unsignedChars q := by
  have sign := Bool.eq_false_of_not_eq_true fun sign => plain ((showsMinus_iff q).mp sign)
  simp only [chars, sign, unsignedChars, written, Bool.false_eq_true, if_false, List.nil_append]

theorem cut_eq_zero_iff : cut (keptPlaces q) q.num.natAbs q.den = 0 ↔
    q.num.natAbs / q.den = 0 ∧ fractionPlaces q = [] := by
  rw [← value_fractionPlaces, div_eq_zero_iff, or_iff_left (by positivity), Nat.cast_eq_zero,
    valueOf_append, valueOf_digits (by decide)]
  constructor
  · intro zero
    have whole : q.num.natAbs / q.den = 0 := by
      have product := Nat.eq_zero_of_add_eq_zero_right zero
      exact (Nat.mul_eq_zero.mp product).resolve_right (by positivity)
    refine ⟨whole, ?_⟩
    have last := getLast?_dropFinalZeros (places q.den (keptPlaces q) (q.num.natAbs % q.den))
    rw [← fractionPlaces_eq] at last
    have denoted := Nat.eq_zero_of_add_eq_zero_left zero
    generalize fractionPlaces q = fraction at last denoted
    cases fraction using List.reverseRecOn with
    | nil => rfl
    | append_singleton ds d =>
      rw [valueOf_append_singleton] at denoted
      have ne : d ≠ 0 := by
        rintro rfl
        exact last List.getLast?_concat
      omega
  · rintro ⟨whole, fraction⟩
    simp [whole, fraction, valueOf]

theorem cut_nonneg (count m den : Nat) : 0 ≤ cut count m den := by
  unfold cut
  positivity

def shownValue : ℚ :=
  if q.num < 0 then -cut (keptPlaces q) q.num.natAbs q.den
  else cut (keptPlaces q) q.num.natAbs q.den

theorem parse?_chars : parse? (chars q) = some (shownValue q) := by
  by_cases minus : ShowsMinus q
  · rw [chars_of_minus q minus, parse?, unsigned?_unsignedChars, shownValue, if_pos minus.1]
    rfl
  · rw [chars_of_not_minus q minus, parse?_unsignedChars, unsigned?_unsignedChars, shownValue]
    split
    · -- A negative number without a minus has been cut to zero, which is its own negative.
      rename_i negative
      have zero := (cut_eq_zero_iff q).mpr (not_not.mp fun shown => minus ⟨negative, shown⟩)
      rw [zero, neg_zero]
    · rfl

theorem shownValue_neg_iff : shownValue q < 0 ↔ ShowsMinus q := by
  have nonneg := cut_nonneg (keptPlaces q) q.num.natAbs q.den
  unfold shownValue ShowsMinus
  rw [← cut_eq_zero_iff]
  by_cases negative : q.num < 0
  · rw [if_pos negative, neg_lt_zero, lt_iff_le_and_ne]
    exact ⟨fun ⟨_, ne⟩ => ⟨negative, Ne.symm ne⟩, fun ⟨_, ne⟩ => ⟨nonneg, Ne.symm ne⟩⟩
  · rw [if_neg negative]
    exact ⟨fun below => absurd below (not_lt.mpr nonneg), fun minus => absurd minus.1 negative⟩

theorem head?_chars : (chars q).head? = some '-' ↔ ShowsMinus q := by
  by_cases minus : ShowsMinus q
  · rw [chars_of_minus q minus]
    exact ⟨fun _ => minus, fun _ => rfl⟩
  · obtain ⟨c, cs, front, digit⟩ := head?_unsignedChars q
    rw [chars_of_not_minus q minus, front]
    constructor
    · intro dash
      obtain rfl := Option.some.inj dash
      simp at digit
    · intro shown
      exact absurd shown minus

theorem tidy_places : Tidy (digits 10 (q.num.natAbs / q.den)) (fractionPlaces q) where
  nonempty := digits_ne_nil (by decide) _
  small _ := lt_of_mem_digits (by decide)
  small' _ := lt_of_mem_fractionPlaces q
  front := by
    rcases Nat.eq_zero_or_pos (q.num.natAbs / q.den) with zero | positive
    · left
      rw [zero]
      exact digits_of_lt (by decide)
    · exact .inr (head?_digits (by decide) positive)
  back := getLast?_dropFinalZeros _

theorem canonical_chars : Canonical (chars q) := by
  by_cases minus : ShowsMinus q
  · rw [chars_of_minus q minus]
    exact canonical_written (.inr rfl) (tidy_places q)
  · rw [chars_of_not_minus q minus]
    exact canonical_written (.inl rfl) (tidy_places q)

theorem shownValue_of_ending (ending : Ending q.den) : shownValue q = q := by
  have divides : q.den ∣ q.num.natAbs * 10 ^ keptPlaces q := by
    rw [keptPlaces, if_pos ((terminates_iff q.den_nz).mpr ending)]
    exact (ending.dvd q.den_nz).mul_left _
  rw [shownValue, cut_of_dvd q.pos divides]
  conv_rhs => rw [← Rat.num_div_den q]
  split
  · rw [← neg_div, ← Int.cast_natCast, Int.ofNat_natAbs_of_nonpos (by omega)]
    simp
  · rw [← Int.cast_natCast, Int.natAbs_of_nonneg (by omega)]

theorem truncate_scaled (count : Nat) :
    truncate (q * 10 ^ count) =
      if q.num < 0 then -((q.num.natAbs * 10 ^ count / q.den : ℕ) : Int)
      else (q.num.natAbs * 10 ^ count / q.den : ℕ) := by
  have scaled : q * 10 ^ count = ((q.num * 10 ^ count : Int) : ℚ) / (q.den : ℕ) := by
    conv_lhs => rw [← Rat.num_div_den q]
    push_cast
    ring
  rw [scaled, truncate_div q.pos]
  split
  · rename_i negative
    have magnitude : q.num = -(q.num.natAbs : Int) := by omega
    conv_lhs => rw [magnitude]
    rw [Int.neg_mul, Int.neg_tdiv]
    norm_cast
  · rename_i nonnegative
    have magnitude : q.num = (q.num.natAbs : Int) := by omega
    conv_lhs => rw [magnitude]
    norm_cast

theorem shownValue_of_not_ending (unending : ¬ Ending q.den) :
    shownValue q = truncate (q * 10 ^ 16) / 10 ^ 16 := by
  have kept : keptPlaces q = 16 := by
    rw [keptPlaces, if_neg fun stops => unending ((terminates_iff q.den_nz).mp stops), placeLimit]
  rw [shownValue, kept, truncate_scaled, cut]
  split
  · rw [Int.cast_neg, Int.cast_natCast, neg_div]
  · rw [Int.cast_natCast]

end Chars

/-- The decimal text of a number is canonical, and reading it back gives the number if its denominator
has no prime factor but two and five, and otherwise the number cut towards zero at sixteen places. A
minus stands in front exactly if what is read is negative. Where the expansion ends, long division
ends by itself: no larger limit gives more places. -/
theorem text_exact_or_cut (q : ℚ) :
    ∃ value, parse? (text q).toList = some value ∧
      (Ending q.den → value = q) ∧
      (¬ Ending q.den → value = truncate (q * 10 ^ 16) / 10 ^ 16) ∧
      Canonical (text q).toList ∧
      ((text q).toList.head? = some '-' ↔ value < 0) ∧
      (Ending q.den → ∀ limit, q.den.log2 ≤ limit →
        places q.den limit (q.num.natAbs % q.den) =
            places q.den q.den.log2 (q.num.natAbs % q.den) ∧
          fractionPlaces q = dropFinalZeros (places q.den limit (q.num.natAbs % q.den))) := by
  have characters : (text q).toList = chars q := by rw [text, String.toList_ofList]
  rw [characters]
  refine ⟨shownValue q, parse?_chars q, shownValue_of_ending q, shownValue_of_not_ending q,
    canonical_chars q, (head?_chars q).trans (shownValue_neg_iff q).symm, ?_⟩
  intro ending limit enough
  have same := places_of_le (Nat.mod_lt q.num.natAbs q.pos) (ending.divided q.den_nz _) enough
  have kept : keptPlaces q = q.den.log2 := by
    rw [keptPlaces, if_pos ((terminates_iff q.den_nz).mpr ending)]
  rw [fractionPlaces_eq, kept, same]
  exact ⟨rfl, rfl⟩

/-- A small negative number is cut down to zero, which has no sign. -/
example : text (-1 / 30000000000000000) = "0" := by
  decide +kernel

end Decimal

end Terse
