import Mathlib.Data.List.Basic
import Mathlib.Data.List.TakeWhile
import Mathlib.Data.Nat.Digits.Defs
import Terse.Number.Decimal

namespace Terse

variable {b n : Nat}

theorem valueOf_append_singleton (b : Nat) (ds : List Nat) (d : Nat) :
    valueOf b (ds ++ [d]) = valueOf b ds * b + d := by
  simp [valueOf]

theorem valueOf_digits (two : 2 ≤ b) (n : Nat) : valueOf b (digits b n) = n := by
  induction n using Nat.strongRecOn with
  | ind n ih =>
    by_cases le : b ≤ n
    · have smaller : n / b < n := Nat.div_lt_self (by omega) two
      rw [digits_of_le two le, valueOf_append_singleton, ih _ smaller]
      exact Nat.div_add_mod' n b
    · rw [digits_of_lt (Nat.lt_of_not_le le)]
      simp [valueOf]

theorem lt_of_mem_digits (two : 2 ≤ b) {d : Nat} (mem : d ∈ digits b n) : d < b := by
  induction n using Nat.strongRecOn with
  | ind n ih =>
    by_cases le : b ≤ n
    · rw [digits_of_le two le, List.mem_append, List.mem_singleton] at mem
      rcases mem with mem | rfl
      · exact ih _ (Nat.div_lt_self (by omega) two) mem
      · exact Nat.mod_lt n (by omega)
    · rw [digits_of_lt (Nat.lt_of_not_le le), List.mem_singleton] at mem
      omega

theorem digits_ne_nil (two : 2 ≤ b) (n : Nat) : digits b n ≠ [] := by
  by_cases le : b ≤ n
  · simp [digits_of_le two le]
  · simp [digits_of_lt (Nat.lt_of_not_le le)]

theorem head?_digits (two : 2 ≤ b) (positive : 0 < n) : (digits b n).head? ≠ some 0 := by
  induction n using Nat.strongRecOn with
  | ind n ih =>
    by_cases le : b ≤ n
    · have rest := ih (n / b) (Nat.div_lt_self positive two) (Nat.div_pos le (by omega))
      rw [digits_of_le two le]
      rwa [List.head?_append_of_ne_nil _ (digits_ne_nil two _)]
    · rw [digits_of_lt (Nat.lt_of_not_le le)]
      simp
      omega

section Significant

variable {α : Type} [DecidableEq α] {zero : α} {xs : List α}

/-- What is left without zeros in front: one zero if there was nothing else. -/
def significant (zero : α) (xs : List α) : List α :=
  if xs.dropWhile (· = zero) = [] then [zero] else xs.dropWhile (· = zero)

theorem significant_of_head? (nonempty : xs ≠ []) (head : xs.head? ≠ some zero) :
    significant zero xs = xs := by
  obtain ⟨x, rest, rfl⟩ := List.exists_cons_of_ne_nil nonempty
  have ne : x ≠ zero := by simpa using head
  simp [significant, ne]

theorem valueOf_dropWhile_zero (b : Nat) (ds : List Nat) :
    valueOf b (ds.dropWhile (· = 0)) = valueOf b ds := by
  induction ds with
  | nil => rfl
  | cons d ds ih =>
    by_cases zero : d = 0
    · subst d
      rw [List.dropWhile_cons_of_pos (by simp), ih]
      simp [valueOf]
    · rw [List.dropWhile_cons_of_neg (by simpa using zero)]

end Significant

theorem valueOf_eq_ofDigits (b : Nat) (ds : List Nat) : valueOf b ds = Nat.ofDigits b ds.reverse := by
  rw [Nat.ofDigits_eq_foldr, List.foldr_reverse, valueOf]
  simp only [Nat.cast_id, Nat.add_comm, Nat.mul_comm]

theorem digits_eq_reverse (two : 2 ≤ b) (positive : 0 < n) :
    digits b n = (Nat.digits b n).reverse := by
  induction n using Nat.strongRecOn with
  | ind n ih =>
    rw [Nat.digits_def' two positive, List.reverse_cons]
    by_cases le : b ≤ n
    · have smaller : n / b < n := Nat.div_lt_self positive two
      rw [digits_of_le two le, ih _ smaller (Nat.div_pos le (by omega))]
    · have below := Nat.lt_of_not_le le
      rw [digits_of_lt below, Nat.div_eq_of_lt below, Nat.mod_eq_of_lt below, Nat.digits_zero]
      rfl

/-- Digits below the base are those of the number they denote, except for zeros in front. -/
theorem digits_valueOf {ds : List Nat} (small : ∀ d ∈ ds, d < b) :
    digits b (valueOf b ds) = significant 0 ds := by
  rw [significant, ← valueOf_dropWhile_zero]
  split
  case isTrue nothing =>
    rw [nothing, valueOf, List.foldl_nil, digits, digitsOnto_of_not (by omega)]
  case isFalse something =>
    have kept : ∀ d ∈ (ds.dropWhile (· = 0)).reverse, d < b := fun d mem =>
      small d ((List.dropWhile_suffix _).subset (List.mem_reverse.mp mem))
    have front : (ds.dropWhile (· = 0)).head something ≠ 0 :=
      of_decide_eq_false (List.head_dropWhile_not (· = 0) something)
    have two : 2 ≤ b := by
      have bound := kept _ (List.mem_reverse.mpr (List.head_mem something))
      omega
    have unique := Nat.digits_ofDigits b two _ kept fun _ => by rwa [List.getLast_reverse]
    rw [← valueOf_eq_ofDigits] at unique
    have positive : 0 < valueOf b (ds.dropWhile (· = 0)) := by
      refine Nat.pos_of_ne_zero fun zero => something ?_
      rwa [zero, Nat.digits_zero, eq_comm, List.reverse_eq_nil_iff] at unique
    rw [digits_eq_reverse two positive, unique, List.reverse_reverse]

/-! Decimal digits as characters. -/

namespace Decimal

theorem digitChar_of_lt {d : Nat} (lt : d < 10) :
    (Nat.digitChar d).isDigit = true ∧ digitValue (Nat.digitChar d) = d := by
  have each : ∀ d < 10,
      (Nat.digitChar d).isDigit = true ∧ digitValue (Nat.digitChar d) = d := by
    decide
  exact each d lt

theorem isDigit_of_mem_map {ds : List Nat} (small : ∀ d ∈ ds, d < 10) {c : Char}
    (mem : c ∈ ds.map Nat.digitChar) : c.isDigit = true := by
  obtain ⟨d, inside, rfl⟩ := List.mem_map.mp mem
  exact (digitChar_of_lt (small d inside)).1

theorem map_digitValue {ds : List Nat} (small : ∀ d ∈ ds, d < 10) :
    (ds.map Nat.digitChar).map digitValue = ds := by
  have same : ∀ d ∈ ds, (digitValue ∘ Nat.digitChar) d = id d := fun d mem =>
    (digitChar_of_lt (small d mem)).2
  rw [List.map_map, List.map_congr_left same, List.map_id]

theorem digitChar_digitValue {c : Char} (digit : c.isDigit = true) :
    digitValue c < 10 ∧ Nat.digitChar (digitValue c) = c := by
  have range : 48 ≤ c.toNat ∧ c.toNat ≤ 57 := Char.isDigit_iff_toNat.mp digit
  have small : digitValue c < 10 := by
    simp only [digitValue, Char.reduceToNat]
    omega
  refine ⟨small, Char.toNat_inj.mp ?_⟩
  rw [Nat.toNat_digitChar_of_lt_ten small]
  simp only [digitValue, Char.reduceToNat]
  omega

theorem exists_digits {cs : List Char} (digits : ∀ c ∈ cs, c.isDigit = true) :
    ∃ ds : List Nat, (∀ d ∈ ds, d < 10) ∧ ds.map Nat.digitChar = cs := by
  refine ⟨cs.map digitValue, fun d mem => ?_, ?_⟩
  · obtain ⟨c, inside, rfl⟩ := List.mem_map.mp mem
    exact (digitChar_digitValue (digits c inside)).1
  · have same : ∀ c ∈ cs, (Nat.digitChar ∘ digitValue) c = id c := fun c mem =>
      (digitChar_digitValue (digits c mem)).2
    rw [List.map_map, List.map_congr_left same, List.map_id]

end Decimal

theorem toList_natText (n : Nat) : (natText n).toList = (digits 10 n).map Nat.digitChar := by
  rw [natText, String.toList_ofList]

theorem toList_natText_ne_nil (n : Nat) : (natText n).toList ≠ [] := by
  simpa [toList_natText] using digits_ne_nil (by decide) n

theorem isDigit_of_mem_natText {c : Char} (mem : c ∈ (natText n).toList) : c.isDigit = true := by
  rw [toList_natText] at mem
  exact Decimal.isDigit_of_mem_map (fun _ => lt_of_mem_digits (by decide)) mem

end Terse
