namespace Terse

/-- Items with the number of reads so far. -/
structure Cycle (α : Type) where
  items : List α
  position : Nat
  deriving DecidableEq

namespace Cycle

variable {α : Type}

def ofList (items : List α) : Cycle α := ⟨items, 0⟩

/-- The item at the position, counted around the list, and the cycle one read further. An empty
cycle has none and stays where it is. -/
def next? (cycle : Cycle α) : Option (α × Cycle α) :=
  match cycle.items[cycle.position % cycle.items.length]? with
  | some item => some (item, { cycle with position := cycle.position + 1 })
  | none => none

theorem next?_eq_none_iff (cycle : Cycle α) : cycle.next? = none ↔ cycle.items = [] := by
  unfold next?
  split
  · rename_i item found
    have inside := (List.getElem?_eq_some_iff.mp found).1
    simp only [reduceCtorEq, false_iff]
    intro empty
    simp [empty] at inside
  · rename_i missing
    have outside := List.getElem?_eq_none_iff.mp missing
    simp only [true_iff]
    apply List.eq_nil_of_length_eq_zero
    rcases Nat.eq_zero_or_pos cycle.items.length with zero | positive
    · exact zero
    · have := Nat.mod_lt cycle.position positive
      omega

end Cycle

end Terse
