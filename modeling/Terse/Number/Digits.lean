namespace Terse

/-- The digits of `n` in base `b`, put before `low`. A base under two leaves `n` as one digit. -/
def digitsOnto (b n : Nat) (low : List Nat) : List Nat :=
  if _ : 2 ≤ b ∧ b ≤ n then digitsOnto b (n / b) (n % b :: low) else n :: low
termination_by n
decreasing_by exact Nat.div_lt_self (by omega) (by omega)

def digits (b n : Nat) : List Nat :=
  digitsOnto b n []

def valueOf (b : Nat) (ds : List Nat) : Nat :=
  ds.foldl (fun acc d => acc * b + d) 0

def natText (n : Nat) : String :=
  String.ofList ((digits 10 n).map Nat.digitChar)

def intText (v : Int) : String :=
  if v < 0 then "-" ++ natText v.natAbs else natText v.natAbs

def ratText (q : Rat) : String :=
  if q.den = 1 then intText q.num else intText q.num ++ "/" ++ natText q.den

theorem digitsOnto_of_le {b n : Nat} (two : 2 ≤ b) (h : b ≤ n) (low : List Nat) :
    digitsOnto b n low = digitsOnto b (n / b) (n % b :: low) := by
  rw [digitsOnto, dif_pos ⟨two, h⟩]

theorem digitsOnto_of_not {b n : Nat} (h : ¬ (2 ≤ b ∧ b ≤ n)) (low : List Nat) :
    digitsOnto b n low = n :: low := by
  rw [digitsOnto, dif_neg h]

theorem digitsOnto_eq (b n : Nat) (low : List Nat) : digitsOnto b n low = digits b n ++ low := by
  have general : ∀ low, digitsOnto b n low = digitsOnto b n [] ++ low := by
    induction n using Nat.strongRecOn with
    | _ n ih =>
      intro low
      by_cases bounds : 2 ≤ b ∧ b ≤ n
      · have smaller : n / b < n := Nat.div_lt_self (by omega) (by omega)
        rw [digitsOnto_of_le bounds.1 bounds.2, digitsOnto_of_le bounds.1 bounds.2,
          ih _ smaller (n % b :: low), ih _ smaller [n % b]]
        simp
      · rw [digitsOnto_of_not bounds, digitsOnto_of_not bounds]
        rfl
  exact general low

theorem digits_of_lt {b n : Nat} (h : n < b) : digits b n = [n] := by
  exact digitsOnto_of_not (by omega) []

theorem digits_of_le {b n : Nat} (two : 2 ≤ b) (h : b ≤ n) :
    digits b n = digits b (n / b) ++ [n % b] := by
  rw [digits, digitsOnto_of_le two h, digitsOnto_eq]

end Terse
