import Mathlib.Algebra.Order.Field.Rat
import Mathlib.Data.List.DropRight
import Terse.Proofs.Number.Rendering

namespace Terse

theorem getLast?_digits {b : Nat} (two : 2 ≤ b) (n : Nat) : (digits b n).getLast? = some (n % b) := by
  by_cases le : b ≤ n
  · rw [digits_of_le two le, List.getLast?_concat]
  · have below := Nat.lt_of_not_le le
    rw [digits_of_lt below, Nat.mod_eq_of_lt below]
    rfl

theorem valueOf_lt {ds : List Nat} (small : ∀ d ∈ ds, d < 10) : valueOf 10 ds < 10 ^ ds.length := by
  rw [valueOf_eq_ofDigits, ← List.length_reverse]
  exact Nat.ofDigits_lt_base_pow_length (by decide) fun d mem => small d (List.mem_reverse.mp mem)

theorem valueOf_injective {ds es : List Nat} (length : ds.length = es.length)
    (small : ∀ d ∈ ds, d < 10) (small' : ∀ d ∈ es, d < 10) (same : valueOf 10 ds = valueOf 10 es) :
    ds = es := by
  rw [valueOf_eq_ofDigits, valueOf_eq_ofDigits] at same
  apply List.reverse_injective
  exact Nat.ofDigits_inj_of_len_eq (by decide) (by simpa using length)
    (fun d mem => small d (List.mem_reverse.mp mem))
    (fun d mem => small' d (List.mem_reverse.mp mem)) same

theorem valueOf_pos {ds : List Nat} (nonempty : ds ≠ []) (head : ds.head? ≠ some 0) :
    0 < valueOf 10 ds := by
  obtain ⟨d, ds, rfl⟩ := List.exists_cons_of_ne_nil nonempty
  have positive : 0 < d := Nat.pos_of_ne_zero (by simpa using head)
  rw [valueOf_cons]
  positivity

namespace Decimal

/-! Tidy digits are the only ones of what they denote. -/

section Tidy

variable {whole fraction whole' fraction' : List Nat}

theorem valueOf_cross (same : denoted whole fraction = denoted whole' fraction') :
    valueOf 10 (whole ++ fraction) * 10 ^ fraction'.length =
      valueOf 10 (whole' ++ fraction') * 10 ^ fraction.length := by
  rw [denoted_eq, denoted_eq, div_eq_div_iff (by positivity) (by positivity)] at same
  exact_mod_cast same

theorem Tidy.length_le (tidy : Tidy whole fraction)
    (same : denoted whole fraction = denoted whole' fraction') :
    fraction.length ≤ fraction'.length := by
  by_contra longer
  obtain ⟨more, length⟩ := Nat.exists_eq_add_of_lt (Nat.lt_of_not_le longer)
  have scaled : valueOf 10 (whole ++ fraction) =
      valueOf 10 (whole' ++ fraction') * 10 ^ more * 10 := by
    have cross := valueOf_cross same
    rw [length, Nat.add_assoc, Nat.pow_add', ← Nat.mul_assoc, Nat.pow_succ, ← Nat.mul_assoc] at cross
    exact Nat.eq_of_mul_eq_mul_right (by positivity) cross
  have back := tidy.back
  cases fraction using List.reverseRecOn with
  | nil => simp at length
  | append_singleton ds d =>
    have last := tidy.small' d (by simp)
    rw [← List.append_assoc, valueOf_append_singleton] at scaled
    rw [List.getLast?_concat] at back
    have zero : d = 0 := by omega
    exact back (congrArg some zero)

theorem Tidy.digits_whole (tidy : Tidy whole fraction) : digits 10 (valueOf 10 whole) = whole := by
  rw [digits_valueOf tidy.small]
  rcases tidy.front with rfl | head
  · rfl
  · exact significant_of_head? tidy.nonempty head

theorem Tidy.unique (tidy : Tidy whole fraction) (tidy' : Tidy whole' fraction')
    (same : denoted whole fraction = denoted whole' fraction') :
    whole = whole' ∧ fraction = fraction' := by
  have length := Nat.le_antisymm (tidy.length_le same) (tidy'.length_le same.symm)
  have total := valueOf_cross same
  rw [length, Nat.mul_right_cancel_iff (by positivity), valueOf_append, valueOf_append, length] at total
  have low := valueOf_lt tidy.small'
  have low' := valueOf_lt tidy'.small'
  rw [length] at low
  have quotient (high : Nat) {low : Nat} (below : low < 10 ^ fraction'.length) :
      (high * 10 ^ fraction'.length + low) / 10 ^ fraction'.length = high := by
    rw [Nat.mul_comm, Nat.mul_add_div (by positivity), Nat.div_eq_of_lt below, Nat.add_zero]
  have high : valueOf 10 whole = valueOf 10 whole' := by
    rw [← quotient (valueOf 10 whole) low, total, quotient _ low']
  have rest : valueOf 10 fraction = valueOf 10 fraction' := by
    rw [high] at total
    exact Nat.add_left_cancel total
  refine ⟨?_, valueOf_injective length tidy.small' tidy'.small' rest⟩
  rw [← tidy.digits_whole, ← tidy'.digits_whole, high]

end Tidy

/-! The digits of a number around its point. -/

section Places

variable {whole fraction : List Nat} {q : ℚ}

def wholePlaces (q : ℚ) : List Nat :=
  digits 10 (q.num.natAbs / q.den)

theorem ending_denoted (whole fraction : List Nat) : Ending (denoted whole fraction).den := by
  intro p prime divides
  have power : (denoted whole fraction).den ∣ 10 ^ fraction.length := by
    have cast : (10 : ℚ) ^ fraction.length = (10 ^ fraction.length : Nat) := by push_cast; rfl
    have quotient := Rat.den_dvd (valueOf 10 (whole ++ fraction)) (10 ^ fraction.length : Nat)
    rw [← Rat.natCast_div_eq_divInt] at quotient
    rw [denoted_eq, cast]
    exact_mod_cast quotient
  have ten : p ∣ 2 * 5 := prime.dvd_of_dvd_pow (divides.trans power)
  rcases prime.dvd_mul.mp ten with two | five
  · exact .inl ((Nat.prime_dvd_prime_iff_eq prime Nat.prime_two).mp two)
  · exact .inr ((Nat.prime_dvd_prime_iff_eq prime Nat.prime_five).mp five)

theorem denoted_nonneg (whole fraction : List Nat) : 0 ≤ denoted whole fraction := by
  unfold denoted
  positivity

theorem denoted_places (ending : Ending q.den) :
    denoted (wholePlaces q) (fractionPlaces q) = |q| := by
  have nonneg := cut_nonneg (keptPlaces q) q.num.natAbs q.den
  have magnitude : |shownValue q| = cut (keptPlaces q) q.num.natAbs q.den := by
    unfold shownValue
    split
    · rw [abs_neg, abs_of_nonneg nonneg]
    · exact abs_of_nonneg nonneg
  rw [denoted_eq, wholePlaces, value_fractionPlaces, ← magnitude, shownValue_of_ending q ending]

theorem Tidy.places (tidy : Tidy whole fraction) :
    wholePlaces (denoted whole fraction) = whole ∧
      fractionPlaces (denoted whole fraction) = fraction := by
  apply (tidy_places _).unique tidy
  have same := denoted_places (ending_denoted whole fraction)
  rwa [abs_of_nonneg (denoted_nonneg whole fraction)] at same

theorem unsignedChars_eq (q : ℚ) :
    unsignedChars q = written (wholePlaces q) (fractionPlaces q) :=
  rfl

theorem wholePlaces_neg (q : ℚ) : wholePlaces (-q) = wholePlaces q := by
  simp [wholePlaces]

theorem fractionPlaces_neg (q : ℚ) : fractionPlaces (-q) = fractionPlaces q := by
  simp [fractionPlaces]

theorem fractionPlaces_of_den (integer : q.den = 1) : fractionPlaces q = [] := by
  rw [fractionPlaces_eq, integer, Nat.mod_one, places_zero]
  rfl

theorem den_of_fractionPlaces (ending : Ending q.den) (whole : fractionPlaces q = []) :
    q.den = 1 := by
  have value := denoted_places ending
  rw [whole, denoted_nil] at value
  rw [← Rat.den_abs_eq_den, ← value, Rat.den_natCast]

end Places

section Turning

variable {whole fraction : List Nat} {q : ℚ}

/-- What stands before and behind the point when digits are read from their end. A point without a
fraction is not written, so it does not move. -/
def turnedPlaces (whole fraction : List Nat) : List Nat × List Nat :=
  if fraction = [] then (whole.reverse, []) else (fraction.reverse, whole.reverse)

theorem turnedPlaces_nil (whole : List Nat) : turnedPlaces whole [] = (whole.reverse, []) :=
  rfl

theorem turnedPlaces_of_ne_nil (pointed : fraction ≠ []) :
    turnedPlaces whole fraction = (fraction.reverse, whole.reverse) :=
  if_neg pointed

theorem turnedPlaces_turnedPlaces (nonempty : whole ≠ []) :
    turnedPlaces (turnedPlaces whole fraction).1 (turnedPlaces whole fraction).2 =
      (whole, fraction) := by
  by_cases pointed : fraction = []
  · simp [pointed, turnedPlaces_nil]
  · have other : whole.reverse ≠ [] := by simpa using nonempty
    simp [turnedPlaces_of_ne_nil pointed, turnedPlaces_of_ne_nil other]

theorem turnedPlaces_digits (tidy : Tidy whole fraction) :
    (turnedPlaces whole fraction).1 ≠ [] ∧ (∀ d ∈ (turnedPlaces whole fraction).1, d < 10) ∧
      ∀ d ∈ (turnedPlaces whole fraction).2, d < 10 := by
  by_cases pointed : fraction = []
  · subst fraction
    simpa [turnedPlaces_nil] using And.intro tidy.nonempty tidy.small
  · simpa [turnedPlaces_of_ne_nil pointed] using ⟨pointed, tidy.small', tidy.small⟩

theorem reverse_written (nonempty : whole ≠ []) :
    (written whole fraction).reverse =
      written (turnedPlaces whole fraction).1 (turnedPlaces whole fraction).2 := by
  by_cases pointed : fraction = []
  · simp [pointed, turnedPlaces_nil, written]
  · simp [turnedPlaces_of_ne_nil pointed, written, pointed, nonempty]

def turned (q : ℚ) : ℚ :=
  denoted (turnedPlaces (wholePlaces q) (fractionPlaces q)).1
    (turnedPlaces (wholePlaces q) (fractionPlaces q)).2

theorem turned_neg (q : ℚ) : turned (-q) = turned q := by
  rw [turned, turned, wholePlaces_neg, fractionPlaces_neg]

theorem turned_nonneg (q : ℚ) : 0 ≤ turned q :=
  denoted_nonneg _ _

theorem ending_turned (q : ℚ) : Ending (turned q).den :=
  ending_denoted _ _

theorem turned_of_whole (whole : fractionPlaces q = []) :
    turned q = denoted (wholePlaces q).reverse [] := by
  rw [turned, whole, turnedPlaces_nil]

theorem turned_of_pointed (pointed : fractionPlaces q ≠ []) :
    turned q = denoted (fractionPlaces q).reverse (wholePlaces q).reverse := by
  rw [turned, turnedPlaces_of_ne_nil pointed]

theorem parse?_reverse (q : ℚ) : parse? (unsignedChars q).reverse = some (turned q) := by
  have tidy : Tidy (wholePlaces q) (fractionPlaces q) := tidy_places q
  obtain ⟨nonempty, small, small'⟩ := turnedPlaces_digits tidy
  rw [unsignedChars_eq, reverse_written tidy.nonempty, parse?_written _ nonempty small,
    unsigned?_written nonempty small small', ← denoted_eq]
  rfl

theorem reverse_eq (q : ℚ) : reverse q = .ok (if q.num < 0 then -turned q else turned q) := by
  have plain (p : ℚ) (natural : ¬ p.num < 0) : parse? (chars p).reverse = some (turned p) := by
    rw [chars_of_not_minus p fun minus => natural minus.1, parse?_reverse]
  by_cases negative : q.num < 0
  · have natural : ¬ (-q).num < 0 := by
      rw [Rat.neg_num]
      omega
    have read := plain (-q) natural
    rw [turned_neg] at read
    simp only [reverse, reversed?, if_pos negative, read, Option.map_some]
  · simp only [reverse, reversed?, if_neg negative, plain q negative, Option.map_some]

/-- Where the turned digits are tidy they are those of the number, and turning them again gives back the
first ones. -/
theorem turned_turned_of_tidy (ending : Ending q.den)
    (tidy : Tidy (turnedPlaces (wholePlaces q) (fractionPlaces q)).1
      (turnedPlaces (wholePlaces q) (fractionPlaces q)).2) :
    turned (turned q) = |q| ∧ unsignedChars (turned q) = (unsignedChars q).reverse := by
  have nonempty : wholePlaces q ≠ [] := (tidy_places q).nonempty
  obtain ⟨whole, fraction⟩ := tidy.places
  constructor
  · rw [← denoted_places ending, turned, turned, whole, fraction,
      turnedPlaces_turnedPlaces nonempty]
  · rw [unsignedChars_eq, turned, whole, fraction, unsignedChars_eq q, reverse_written nonempty]

theorem abs_eq_quotient (q : ℚ) : |q| = (q.num.natAbs : ℚ) / q.den := by
  rw [Rat.abs_def, ← Rat.natCast_div_eq_divInt]

/-- A whole number without a zero at its end, and a fraction with a whole part, have no zero where none is
written after turning. -/
theorem tidy_turnedPlaces (ending : Ending q.den)
    (kept : q.den = 1 ∧ (q = 0 ∨ ¬ (10 : Int) ∣ q.num) ∨ q.den ≠ 1 ∧ 1 ≤ |q|) :
    Tidy (turnedPlaces (wholePlaces q) (fractionPlaces q)).1
      (turnedPlaces (wholePlaces q) (fractionPlaces q)).2 := by
  have tidy : Tidy (wholePlaces q) (fractionPlaces q) := tidy_places q
  obtain ⟨nonempty, small, small'⟩ := turnedPlaces_digits tidy
  refine ⟨nonempty, small, small', ?_, ?_⟩
  · rcases kept with ⟨integer, kept⟩ | ⟨pointed, _⟩
    · rw [fractionPlaces_of_den integer, turnedPlaces_nil, List.head?_reverse, wholePlaces]
      rcases kept with rfl | kept
      · left
        rw [Rat.num_zero, Int.natAbs_zero, Nat.zero_div, digits_of_lt (by decide)]
        rfl
      · right
        rw [getLast?_digits (by decide), integer, Nat.div_one]
        intro zero
        have last := Option.some.inj zero
        omega
    · right
      rw [turnedPlaces_of_ne_nil (mt (den_of_fractionPlaces ending) pointed), List.head?_reverse]
      exact tidy.back
  · rcases kept with ⟨integer, _⟩ | ⟨pointed, large⟩
    · rw [fractionPlaces_of_den integer, turnedPlaces_nil]
      simp
    · rw [turnedPlaces_of_ne_nil (mt (den_of_fractionPlaces ending) pointed), List.getLast?_reverse]
      have positive : (0 : ℚ) < q.den := by positivity
      rw [abs_eq_quotient, one_le_div positive, Nat.cast_le] at large
      exact head?_digits (by decide) (Nat.div_pos large q.pos)

theorem kept_of_turned_turned (same : turned (turned q) = |q|) :
    q.den = 1 ∧ (q = 0 ∨ ¬ (10 : Int) ∣ q.num) ∨ q.den ≠ 1 ∧ 1 ≤ |q| := by
  have tidy : Tidy (wholePlaces (turned q)) (fractionPlaces (turned q)) := tidy_places _
  by_cases integer : q.den = 1
  · refine .inl ⟨integer, ?_⟩
    have integer' : (turned q).den = 1 := by
      rw [turned_of_whole (fractionPlaces_of_den integer), denoted_nil, Rat.den_natCast]
    rw [turned_of_whole (fractionPlaces_of_den integer'), denoted_nil] at same
    rcases tidy.front with zero | front
    · left
      rw [zero] at same
      exact abs_eq_zero.mp same.symm
    · right
      obtain ⟨d, ds, digits⟩ := List.exists_cons_of_ne_nil tidy.nonempty
      have small : d < 10 := tidy.small d (by simp [digits])
      have nonzero : d ≠ 0 := by simpa [digits] using front
      rw [abs_eq_quotient, integer, Nat.cast_one, div_one, Nat.cast_inj, digits, List.reverse_cons,
        valueOf_append_singleton] at same
      omega
  · refine .inr ⟨integer, ?_⟩
    have pointed : fractionPlaces (turned q) ≠ [] := by
      intro whole
      rw [turned_of_whole whole, denoted_nil] at same
      rw [← Rat.den_abs_eq_den, ← same, Rat.den_natCast] at integer
      exact integer rfl
    have front : (fractionPlaces (turned q)).reverse.head? ≠ some 0 := by
      rw [List.head?_reverse]
      exact tidy.back
    have one : (1 : ℚ) ≤ valueOf 10 (fractionPlaces (turned q)).reverse := by
      exact_mod_cast valueOf_pos (by simpa using pointed) front
    rw [← same, turned_of_pointed pointed, denoted]
    exact one.trans (le_add_of_nonneg_right (by positivity))

theorem turned_turned_iff (q : ℚ) : turned (turned q) = |q| ↔
    Ending q.den ∧ (q.den = 1 ∧ (q = 0 ∨ ¬ (10 : Int) ∣ q.num) ∨ q.den ≠ 1 ∧ 1 ≤ |q|) := by
  constructor
  · intro same
    have ending := ending_turned (turned q)
    rw [same, Rat.den_abs_eq_den] at ending
    exact ⟨ending, kept_of_turned_turned same⟩
  · rintro ⟨ending, kept⟩
    exact (turned_turned_of_tidy ending (tidy_turnedPlaces ending kept)).1

theorem turned_zero : turned 0 = 0 := by
  have integer : fractionPlaces 0 = [] := fractionPlaces_of_den rfl
  have zero : wholePlaces 0 = [0] := digits_of_lt (by decide)
  rw [turned_of_whole integer, zero, denoted_nil]
  rfl

theorem reverse_reverse (q : ℚ) : ∃ once, reverse q = .ok once ∧
    reverse once = .ok (if q.num < 0 then -turned (turned q) else turned (turned q)) ∧
    |once| = turned q ∧ (0 < once → 0 < q) ∧ (once < 0 → q < 0) := by
  have nonneg := turned_nonneg q
  refine ⟨_, reverse_eq q, ?_⟩
  by_cases negative : q.num < 0
  · rw [if_pos negative, if_pos negative, reverse_eq, turned_neg, abs_neg, abs_of_nonneg nonneg]
    have below : q < 0 := Rat.num_neg.mp negative
    refine ⟨?_, rfl, fun positive => absurd positive (by simpa using nonneg), fun _ => below⟩
    split
    · rfl
    · rename_i other
      rw [Rat.num_neg, neg_lt_zero, not_lt] at other
      rw [le_antisymm other nonneg, turned_zero, neg_zero]
  · have natural' : ¬ (turned q).num < 0 := mt Rat.num_neg.mp (not_lt.mpr nonneg)
    rw [if_neg negative, if_neg negative, reverse_eq, abs_of_nonneg nonneg, if_neg natural']
    refine ⟨rfl, rfl, fun positive => ?_, fun below => absurd below (not_lt.mpr nonneg)⟩
    have natural : 0 ≤ q := not_lt.mp (mt Rat.num_neg.mpr negative)
    refine lt_of_le_of_ne natural ?_
    rintro rfl
    exact absurd turned_zero positive.ne'

theorem chars_abs (q : ℚ) : chars |q| = unsignedChars q := by
  have natural : ¬ |q|.num < 0 := by
    rw [Rat.num_neg]
    exact not_lt.mpr (abs_nonneg q)
  rw [chars_of_not_minus _ fun minus => natural minus.1, unsignedChars_eq, unsignedChars_eq]
  rcases abs_choice q with same | opposite
  · rw [same]
  · rw [opposite, wholePlaces_neg, fractionPlaces_neg]

end Turning

/-- A number can always be turned around, and keeps its sign unless it becomes zero. Turned around twice
it is the same exactly if its expansion ends and it is a whole number without a zero at its end, or zero,
or a fraction of at least one; its text is then read from its other end. -/
theorem reverse_twice_iff (q : ℚ) :
    ∃ once twice, reverse q = .ok once ∧ reverse once = .ok twice ∧
      (twice = q ↔ Ending q.den ∧
        (q.den = 1 ∧ (q = 0 ∨ ¬ (10 : Int) ∣ q.num) ∨ q.den ≠ 1 ∧ 1 ≤ |q|)) ∧
      (0 < once → 0 < q) ∧ (once < 0 → q < 0) ∧
      (twice = q → chars |once| = (chars |q|).reverse) := by
  obtain ⟨once, read, again, magnitude, positive, negative⟩ := reverse_reverse q
  have same_iff : (if q.num < 0 then -turned (turned q) else turned (turned q)) = q ↔
      turned (turned q) = |q| := by
    split
    · rename_i below
      rw [abs_of_neg (Rat.num_neg.mp below), neg_eq_iff_eq_neg]
    · rename_i natural
      rw [abs_of_nonneg (not_lt.mp (mt Rat.num_neg.mpr natural))]
  refine ⟨once, _, read, again, same_iff.trans (turned_turned_iff q), positive, negative, ?_⟩
  intro same
  obtain ⟨ending, kept⟩ := (turned_turned_iff q).mp (same_iff.mp same)
  rw [magnitude, chars_abs, ← (turned_turned_of_tidy ending (tidy_turnedPlaces ending kept)).2,
    ← chars_abs, abs_of_nonneg (turned_nonneg q)]

/-- The zero before the point is not kept. -/
example : reverse (1 / 2) = .ok 5 ∧ reverse 5 = .ok 5 := by
  decide +kernel

end Decimal

end Terse
