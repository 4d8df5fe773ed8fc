import Mathlib.Data.List.DropRight
import Mathlib.Data.Nat.Factorization.Basic
import Mathlib.Tactic.Positivity
import Mathlib.Tactic.Ring
import Terse.Proofs.Number.Digits

/-! Long division. Its places are those of the quotient, however many are asked for, and it comes to an
end by itself for the denominators without primes but two and five. -/
namespace Terse

theorem valueOf_append (b : Nat) (ds es : List Nat) :
    valueOf b (ds ++ es) = valueOf b ds * b ^ es.length + valueOf b es := by
  induction es using List.reverseRecOn with
  | nil => simp [valueOf]
  | append_singleton es e ih =>
    rw [← List.append_assoc, valueOf_append_singleton, valueOf_append_singleton, ih,
      List.length_append, List.length_singleton, Nat.pow_succ]
    ring

theorem valueOf_cons (b d : Nat) (ds : List Nat) :
    valueOf b (d :: ds) = d * b ^ ds.length + valueOf b ds := by
  have single : valueOf b [d] = d := by simp [valueOf]
  rw [← List.singleton_append, valueOf_append, single]

theorem valueOf_replicate_zero (b count : Nat) : valueOf b (List.replicate count 0) = 0 := by
  induction count with
  | zero => rfl
  | succ count ih => rw [List.replicate_succ, valueOf_cons, ih, Nat.zero_mul]

namespace Decimal

def Ending (den : Nat) : Prop :=
  ∀ p, p.Prime → p ∣ den → p = 2 ∨ p = 5

section Division

variable {den rest limit : Nat}

theorem places_zero (den limit : Nat) : places den limit 0 = [] := by
  cases limit <;> rfl

theorem places_of_ne_zero (some_left : rest ≠ 0) :
    places den (limit + 1) rest = rest * 10 / den :: places den limit (rest * 10 % den) := by
  rw [places, if_neg some_left]

theorem length_places_le (den limit rest : Nat) : (places den limit rest).length ≤ limit := by
  induction limit generalizing rest with
  | zero => simp [places]
  | succ limit ih =>
    by_cases none_left : rest = 0
    · simp [none_left, places_zero]
    · rw [places_of_ne_zero none_left, List.length_cons]
      exact Nat.succ_le_succ (ih _)

theorem lt_of_mem_places (below : rest < den) {d : Nat} (mem : d ∈ places den limit rest) :
    d < 10 := by
  induction limit generalizing rest with
  | zero => simp [places] at mem
  | succ limit ih =>
    by_cases none_left : rest = 0
    · simp [none_left, places_zero] at mem
    · rw [places_of_ne_zero none_left, List.mem_cons] at mem
      rcases mem with rfl | mem
      · exact Nat.div_lt_of_lt_mul (by omega)
      · exact ih (Nat.mod_lt _ (by omega)) mem

/-- The places are the quotient in units of the last of them, rounded down; division has stopped early
only where nothing was left. -/
theorem valueOf_places (limit : Nat) (below : rest < den) :
    valueOf 10 (places den limit rest) = rest * 10 ^ (places den limit rest).length / den ∧
      ((places den limit rest).length = limit ∨
        rest * 10 ^ (places den limit rest).length % den = 0) := by
  induction limit generalizing rest with
  | zero => simp [places, valueOf, Nat.div_eq_of_lt below]
  | succ limit ih =>
    by_cases none_left : rest = 0
    · simp [none_left, places_zero, valueOf]
    · obtain ⟨value, stopped⟩ := ih (Nat.mod_lt (rest * 10) (by omega : 0 < den))
      rw [places_of_ne_zero none_left, List.length_cons, valueOf_cons, value]
      generalize (places den limit (rest * 10 % den)).length = count at stopped ⊢
      have shifted : rest * 10 ^ (count + 1) =
          rest * 10 % den * 10 ^ count + den * (rest * 10 / den * 10 ^ count) := by
        have divided := Nat.div_add_mod (rest * 10) den
        calc rest * 10 ^ (count + 1) = rest * 10 * 10 ^ count := by ring
          _ = (den * (rest * 10 / den) + rest * 10 % den) * 10 ^ count := by rw [divided]
          _ = _ := by ring
      rw [shifted, Nat.add_mul_div_left _ _ (by omega), Nat.add_mul_mod_self_left]
      exact ⟨Nat.add_comm _ _, stopped.imp (congrArg (· + 1)) id⟩

theorem places_of_le {enough : Nat} (below : rest < den) (divided : rest * 10 ^ enough % den = 0)
    (le : enough ≤ limit) : places den limit rest = places den enough rest := by
  induction enough generalizing rest limit with
  | zero =>
    have none_left : rest = 0 := by rwa [Nat.pow_zero, Nat.mul_one, Nat.mod_eq_of_lt below] at divided
    rw [none_left, places_zero, places_zero]
  | succ enough ih =>
    by_cases none_left : rest = 0
    · rw [none_left, places_zero, places_zero]
    · obtain ⟨limit, rfl⟩ := Nat.exists_eq_succ_of_ne_zero (Nat.ne_zero_of_lt le)
      rw [places_of_ne_zero none_left, places_of_ne_zero none_left]
      congr 1
      apply ih (Nat.mod_lt _ (by omega)) _ (Nat.le_of_succ_le_succ le)
      rw [Nat.mod_mul_mod, Nat.mul_assoc, ← Nat.pow_succ']
      exact divided

end Division

section Ending

variable {den : Nat}

/-- Each of the two primes occurs no more often than the denominator has binary places. -/
theorem Ending.dvd (ending : Ending den) (positive : den ≠ 0) : den ∣ 10 ^ den.log2 := by
  have power : 10 ^ den.log2 ≠ 0 := by positivity
  rw [← Nat.factorization_prime_le_iff_dvd positive power]
  intro p prime
  by_cases divides : p ∣ den
  · have often : p ∣ 10 := by
      rcases ending p prime divides with rfl | rfl <;> decide
    have once : 1 ≤ (10 : Nat).factorization p :=
      prime.factorization_pos_of_dvd (by decide) often
    have bound : 2 ^ den.factorization p ≤ den :=
      (Nat.pow_le_pow_left prime.two_le _).trans (Nat.ordProj_le p positive)
    rw [Nat.factorization_pow, Finsupp.smul_apply, smul_eq_mul]
    exact ((Nat.le_log2 positive).mpr bound).trans (Nat.le_mul_of_pos_right _ once)
  · rw [Nat.factorization_eq_zero_of_not_dvd divides]
    exact Nat.zero_le _

theorem divideOut_of_dvd {factor n : Nat} (two : 2 ≤ factor) (positive : 0 < n)
    (divides : n % factor = 0) : divideOut factor n = divideOut factor (n / factor) := by
  rw [divideOut, dif_pos ⟨two, positive, divides⟩]

theorem divideOut_of_not {factor n : Nat} (stopped : ¬ (2 ≤ factor ∧ 0 < n ∧ n % factor = 0)) :
    divideOut factor n = n := by
  rw [divideOut, dif_neg stopped]

theorem dvd_divideOut {factor n : Nat} (prime : factor.Prime) (positive : 0 < n) :
    0 < divideOut factor n ∧
      ∀ p, p.Prime → (p ∣ divideOut factor n ↔ p ∣ n ∧ p ≠ factor) := by
  induction n using Nat.strongRecOn with
  | ind n ih =>
    by_cases divides : n % factor = 0
    · rw [divideOut_of_dvd prime.two_le positive divides]
      obtain ⟨rest, rfl⟩ := Nat.dvd_of_mod_eq_zero divides
      rw [Nat.mul_div_cancel_left _ prime.pos]
      have rest_pos : 0 < rest := Nat.pos_of_mul_pos_left positive
      obtain ⟨left, primes⟩ :=
        ih rest (lt_mul_of_one_lt_left rest_pos prime.one_lt) rest_pos
      refine ⟨left, fun p prime' => ?_⟩
      rw [primes p prime']
      refine and_congr_left fun ne => ?_
      have other : ¬ p ∣ factor := mt (Nat.prime_dvd_prime_iff_eq prime' prime).mp ne
      rw [prime'.dvd_mul, or_iff_right other]
    · rw [divideOut_of_not (by omega)]
      refine ⟨positive, fun p _ => ⟨fun found => ⟨found, ?_⟩, And.left⟩⟩
      rintro rfl
      exact divides (Nat.mod_eq_zero_of_dvd found)

theorem terminates_iff (positive : den ≠ 0) : terminates den = true ↔ Ending den := by
  obtain ⟨left, primes⟩ := dvd_divideOut Nat.prime_two (Nat.pos_of_ne_zero positive)
  obtain ⟨_, primes'⟩ := dvd_divideOut Nat.prime_five left
  rw [terminates, decide_eq_true_eq, Nat.eq_one_iff_not_exists_prime_dvd]
  refine forall₂_congr fun p prime => ?_
  rw [primes' p prime, primes p prime]
  tauto

theorem Ending.divided (ending : Ending den) (positive : den ≠ 0) (rest : Nat) :
    rest * 10 ^ den.log2 % den = 0 :=
  Nat.mod_eq_zero_of_dvd ((ending.dvd positive).mul_left rest)

end Ending

section Zeros

variable {ds : List Nat}

theorem dropFinalZeros_eq (ds : List Nat) : dropFinalZeros ds = ds.rdropWhile (· = 0) :=
  rfl

theorem exists_zeros (ds : List Nat) :
    ∃ count, ds = dropFinalZeros ds ++ List.replicate count 0 := by
  refine ⟨(ds.rtakeWhile (· = 0)).length, ?_⟩
  have zeros : ds.rtakeWhile (· = 0) = List.replicate (ds.rtakeWhile (· = 0)).length 0 := by
    rw [List.eq_replicate_iff]
    exact ⟨rfl, fun d mem => by simpa using List.mem_rtakeWhile_imp mem⟩
  rw [← zeros, dropFinalZeros_eq, List.rdropWhile_append_rtakeWhile]

theorem mem_of_mem_dropFinalZeros {d : Nat} (mem : d ∈ dropFinalZeros ds) : d ∈ ds :=
  (List.rdropWhile_prefix _ ds).subset mem

theorem getLast?_dropFinalZeros (ds : List Nat) : (dropFinalZeros ds).getLast? ≠ some 0 := by
  intro last
  have nonempty : ds.rdropWhile (· = 0) ≠ [] := by
    intro empty
    rw [dropFinalZeros_eq, empty] at last
    cases last
  have not_zero := List.rdropWhile_last_not (· = 0) ds nonempty
  rw [dropFinalZeros_eq, List.getLast?_eq_some_getLast nonempty, Option.some.injEq] at last
  simp [last] at not_zero

end Zeros

end Decimal

end Terse
