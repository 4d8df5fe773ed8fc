import Mathlib.Data.Rat.Lemmas
import Terse.Literal.Evaluate

namespace Terse

namespace Value

/-- The length of a text in bytes, or of a list in elements. -/
def extent? : Value → Option Nat
  | text s => some s.utf8ByteSize
  | list items => some items.length
  | _ => none

def copies (n : Nat) : Value → Value
  | text s => text (String.join (List.replicate n s))
  | list items => list (List.replicate n items).flatten
  | v => v

variable {v : Value} {size : Nat}

theorem utf8ByteSize_join_replicate (n : Nat) (s : String) :
    (String.join (List.replicate n s)).utf8ByteSize = n * s.utf8ByteSize := by
  induction n with
  | zero => simp
  | succ n ih => 
    rw [List.replicate_succ, String.join_cons, String.utf8ByteSize_append, ih, Nat.succ_mul,
      Nat.add_comm]

theorem extent?_copies (extent : v.extent? = some size) (n : Nat) :
    (v.copies n).extent? = some (n * size) := by
  cases v with
  | text s =>
    obtain rfl := Option.some.inj extent
    simp only [copies, extent?, utf8ByteSize_join_replicate]
  | list items =>
    obtain rfl := Option.some.inj extent
    simp [copies, extent?]
  | _ => simp [extent?] at extent

theorem copies_of_empty (extent : v.extent? = some 0) (n : Nat) : v.copies n = v := by
  cases v with
  | text s =>
    obtain rfl : s = "" := String.utf8ByteSize_eq_zero_iff.mp (Option.some.inj extent)
    have none : (String.join (List.replicate n "")).utf8ByteSize = 0 := by
      rw [utf8ByteSize_join_replicate]; rfl
    rw [copies, String.utf8ByteSize_eq_zero_iff.mp none]
  | list items =>
    obtain rfl := List.length_eq_zero_iff.mp (Option.some.inj extent)
    simp [copies]
  | _ => simp [extent?] at extent

theorem add_copies (extent : v.extent? = some size) (m n : Nat) :
    Operator.add.onValues (v.copies m) (v.copies n) = .ok (v.copies (m + n)) := by
  cases v with
  | text s =>
    simp only [copies, Operator.onValues, ← String.join_append, List.replicate_append_replicate]
  | list items =>
    simp only [copies, Operator.onValues, ← List.flatten_append, List.replicate_append_replicate]
  | _ => simp [extent?] at extent

end Value

theorem repeatText_eq (s : String) (n : Nat) :
    repeatText s n = String.join (List.replicate n s) := by
  induction n with
  | zero => rfl
  | succ n ih =>
    rw [repeatText, Nat.repeat, ← repeatText, ih, List.replicate_succ', String.join_append]
    simp

theorem repeatItems_eq (items : List Value) (n : Nat) :
    repeatItems items n = (List.replicate n items).flatten := by
  induction n with
  | zero => rfl
  | succ n ih =>
    rw [repeatItems, Nat.repeat, ← repeatItems, ih, List.replicate_succ, List.flatten_cons]

namespace Operator

variable {v : Value} {size : Nat}

theorem mul_onValues (extent : v.extent? = some size) (q : Rat) :
    mul.onValues v (.number q) = (repeatCount q size).map v.copies := by
  cases v with
  | text s =>
    obtain rfl := Option.some.inj extent
    simp only [onValues, repeatText_eq]
    rfl
  | list items =>
    obtain rfl := Option.some.inj extent
    simp only [onValues, repeatItems_eq]
    rfl
  | _ => simp [Value.extent?] at extent

theorem mul_onValues_comm (extent : v.extent? = some size) (q : Rat) :
    mul.onValues (.number q) v = mul.onValues v (.number q) := by
  cases v with
  | text | list => rfl
  | _ => simp [Value.extent?] at extent

end Operator

theorem repeatCount_fraction {q : Rat} (fraction : ∀ z : Int, q ≠ z) (size : Nat) :
    repeatCount q size = .error (.fractionalCount q) := by
  have den : q.den ≠ 1 := fun one => fraction q.num (Rat.den_eq_one_iff q |>.mp one).symm
  rw [repeatCount, if_pos den]

theorem repeatCount_int (z : Int) (size : Nat) :
    repeatCount z size =
      if z < 0 ∨ size = 0 then .ok 0
      else if z.toNat * size ≤ repeatLimit then .ok z.toNat
      else .error (.hugeCount z) := by
  rw [repeatCount, if_neg (by simp), Rat.num_intCast]

def TooLong (z : Int) (size : Nat) : Prop :=
  0 < z ∧ 0 < size ∧ 2 ^ 24 < z * size

theorem repeatCount_tooLong {z : Int} {size : Nat} (long : TooLong z size) :
    repeatCount z size = .error (.hugeCount z) := by
  obtain ⟨positive, nonempty, above⟩ := long
  lift z to Nat using positive.le
  have above : ¬ z * size ≤ repeatLimit := by
    rw [repeatLimit]
    push_cast at above
    exact_mod_cast not_le.mpr above
  rw [repeatCount_int, if_neg (by omega), Int.toNat_natCast, if_neg above]

theorem exists_repeatCount {z : Int} {size : Nat} (fits : ¬ TooLong z size) :
    ∃ n, repeatCount z size = .ok n ∧ (n = z.toNat ∨ size = 0) ∧ z.toNat * size ≤ repeatLimit := by
  rw [repeatCount_int]
  by_cases shortcut : z < 0 ∨ size = 0
  · -- No copies are made here, which of nothing are as good as any number.
    refine ⟨0, if_pos shortcut, ?_, ?_⟩
    · omega
    · obtain negative | rfl := shortcut
      · simp [Int.toNat_of_nonpos negative.le]
      · simp
  · obtain ⟨nonneg, nonempty⟩ := not_or.mp shortcut
    lift z to Nat using not_lt.mp nonneg
    have within : z * size ≤ repeatLimit := by
      by_contra above
      have positive : 0 < z := Nat.pos_of_ne_zero fun zero => above (by simp [zero])
      refine fits ⟨by exact_mod_cast positive, Nat.pos_of_ne_zero nonempty, ?_⟩
      rw [repeatLimit] at above
      exact_mod_cast not_le.mp above
    exact ⟨z, by rw [if_neg shortcut, Int.toNat_natCast, if_pos within], .inl rfl, within⟩

/-! Products of a sequence and a number. -/

/-- The outcome of repeating a text or list of the given length so many times. -/
structure Repeats (v : Value) (size : Nat) (q : Rat) (outcome : Except Failure Value) : Prop where
  typeError : (∃ failure, outcome = .error failure ∧ failure.kind = .typeMismatch) ↔
    ∀ z : Int, q ≠ z
  domainError : (∃ failure, outcome = .error failure ∧ failure.kind = .domain) ↔
    ∃ z : Int, q = z ∧ TooLong z size
  made : ∀ z : Int, q = z → ¬ TooLong z size →
    outcome = .ok (v.copies z.toNat) ∧ (v.copies z.toNat).extent? = some (z.toNat * size) ∧
      z.toNat * size ≤ 2 ^ 24
  ofNothing : size = 0 → ∀ z : Int, q = z → outcome = .ok v

variable {v : Value} {size : Nat}

namespace Repeats

theorem fraction {q : Rat} (fraction : ∀ z : Int, q ≠ z) :
    Repeats v size q (.error (.fractionalCount q)) where
  typeError := by simp [Failure.kind, fraction]
  domainError := by simp [Failure.kind, fraction]
  made z whole := absurd whole (fraction z)
  ofNothing _ z whole := absurd whole (fraction z)

theorem tooLong {z : Int} (long : TooLong z size) :
    Repeats v size z (.error (.hugeCount z)) where
  typeError := by simp [Failure.kind]
  domainError := by simpa [Failure.kind] using long
  made y same fits := absurd (Rat.intCast_injective same ▸ long) fits
  ofNothing empty := absurd empty long.2.1.ne'

theorem copies {z : Int} (extent : v.extent? = some size) (fits : ¬ TooLong z size)
    (within : z.toNat * size ≤ 2 ^ 24) : Repeats v size z (.ok (v.copies z.toNat)) where
  typeError := by simp
  domainError := by
    simp only [reduceCtorEq, false_and, exists_false, false_iff, not_exists, not_and]
    exact fun y same => Rat.intCast_injective same ▸ fits
  made y same _ := by
    obtain rfl := Rat.intCast_injective same
    exact ⟨rfl, Value.extent?_copies extent _, within⟩
  ofNothing empty y _ := by rw [Value.copies_of_empty (empty ▸ extent)]

end Repeats

theorem repeats_mul (extent : v.extent? = some size) (q : Rat) :
    Repeats v size q (Operator.mul.onValues v (.number q)) := by
  rw [Operator.mul_onValues extent]
  by_cases whole : ∃ z : Int, q = z
  · obtain ⟨z, rfl⟩ := whole
    by_cases long : TooLong z size
    · rw [repeatCount_tooLong long]
      exact .tooLong long
    · obtain ⟨n, count, exact_or_empty, within⟩ := exists_repeatCount long
      have same : v.copies n = v.copies z.toNat := by
        obtain rfl | rfl := exact_or_empty
        · rfl
        · rw [Value.copies_of_empty extent, Value.copies_of_empty extent]
      rw [count, Except.map, same]
      exact .copies extent long within
  · have fraction : ∀ z : Int, q ≠ z := not_exists.mp whole
    rw [repeatCount_fraction fraction]
    exact .fraction fraction

theorem mul_sum (extent : v.extent? = some size) (m n : Nat) {whole : Value}
    (made : Operator.mul.onValues v (.number (m + n)) = .ok whole) :
    ∃ front back, Operator.mul.onValues v (.number m) = .ok front ∧
      Operator.mul.onValues v (.number n) = .ok back ∧
      Operator.add.onValues front back = .ok whole := by
  have fits : ¬ TooLong ((m + n : Nat) : Int) size := fun long => by
    obtain ⟨failure, failed, -⟩ := (repeats_mul extent _).domainError.mpr ⟨_, rfl, long⟩
    push_cast at failed
    rw [made] at failed
    contradiction
  have part : ∀ k ≤ m + n, Operator.mul.onValues v (.number k) = .ok (v.copies k) := fun k le => by
    have fits : ¬ TooLong (k : Int) size := fun ⟨positive, nonempty, long⟩ => fits
      ⟨by omega, nonempty, long.trans_le (by exact_mod_cast Nat.mul_le_mul_right size le)⟩
    simpa using ((repeats_mul extent k).made k (by simp) fits).1
  refine ⟨v.copies m, v.copies n, part m (by omega), part n (by omega), ?_⟩
  have all := part (m + n) le_rfl
  push_cast at all
  rw [Value.add_copies extent, ← made, all]

/-- For a text or list, the count and the length alone decide whether it can be repeated, on either
side of the operator; and counts can be repeated apart and joined. -/
theorem repetition_bounded (extent : v.extent? = some size) :
    (∀ q, Repeats v size q (Operator.mul.onValues v (.number q)) ∧
      Operator.mul.onValues (.number q) v = Operator.mul.onValues v (.number q)) ∧
    (∀ (m n : Nat) (whole : Value), Operator.mul.onValues v (.number (m + n)) = .ok whole →
      ∃ front back, Operator.mul.onValues v (.number m) = .ok front ∧
        Operator.mul.onValues v (.number n) = .ok back ∧
        Operator.add.onValues front back = .ok whole) ∧
    ∀ {α : Type} (note : α) (sequence count : Expr α) (q : Rat),
      sequence.evaluate = .ok v → count.evaluate = .ok (.number q) →
      (Expr.binary note .mul sequence count).evaluate = Operator.mul.onValues v (.number q) ∧
        (Expr.binary note .mul count sequence).evaluate = Operator.mul.onValues v (.number q) := by
  refine ⟨fun q => ⟨repeats_mul extent q, Operator.mul_onValues_comm extent q⟩,
    fun m n whole made => mul_sum extent m n made, fun note sequence count q ofSequence ofCount => ?_⟩
  constructor
  · simp only [Expr.evaluate, ofSequence, ofCount, bind, Except.bind]
  · simp only [Expr.evaluate, ofSequence, ofCount, bind, Except.bind,
      Operator.mul_onValues_comm extent]

theorem repetition_bounded_letters :
    (Value.text "ab").extent? = some 2 ∧
    Operator.mul.onValues (.number 3) (.text "ab") = .ok (.text "ababab") ∧
    ∃ failure, Operator.mul.onValues (.text "ab") (.number (8388609 : Int)) = .error failure ∧
      failure.kind = .domain := by
  have extent : (Value.text "ab").extent? = some 2 := by decide
  refine ⟨extent, ?_, ?_⟩
  · obtain ⟨repeats, swapped⟩ := (repetition_bounded extent).1 3
    rw [swapped, (repeats.made 3 rfl (by simp [TooLong])).1]
    simp [Value.copies, String.join]
  · exact ((repetition_bounded extent).1 _).1.domainError.mpr ⟨_, rfl, by simp [TooLong]⟩

end Terse
