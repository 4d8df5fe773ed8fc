import Terse.Input.Stack

/-! Popping in parts and popping again. What a pop takes is what the stack holds, from the top down, and
then as many values of the input as are missing. So two pops that remove their values take what one pop
for both would; and a pop that retains them leaves a stack on which the next one lacks nothing. -/
namespace Terse

namespace Session

def takeInputs : (count : Nat) → Session → List Value × Session
  | 0, session => ([], session)
  | count + 1, session =>
    let (value, session) := session.takeInput
    let (values, session) := takeInputs count session
    (value :: values, session)

theorem flags_takeInput (session : Session) : session.takeInput.2.flags = session.flags := by
  unfold takeInput
  split
  · rename_i source _
    unfold withActive
    split <;> rfl
  · split <;> rfl

theorem flags_takeInputs (count : Nat) (session : Session) :
    (takeInputs count session).2.flags = session.flags := by
  induction count generalizing session with
  | zero => rfl
  | succ count ih => exact (ih _).trans session.flags_takeInput

theorem length_takeInputs (count : Nat) (session : Session) :
    (takeInputs count session).1.length = count := by
  induction count generalizing session with
  | zero => rfl
  | succ count ih => exact congrArg (· + 1) (ih _)

end Session

namespace Stack

variable (count m n : Nat) (stack : Stack) (session : Session)

theorem takeValues_eq :
    takeValues count stack session =
      (stack.take count ++ (session.takeInputs (count - stack.length)).1, stack.drop count,
        (session.takeInputs (count - stack.length)).2) := by
  induction count generalizing stack session with
  | zero => simp [takeValues, Session.takeInputs]
  | succ count ih =>
    cases stack with
    | nil => simp [takeValues, Session.takeInputs, ih]
    | cons value stack => simp [takeValues, ih]

theorem takeValues_add :
    takeValues (m + n) stack session =
      let (values, stack, session) := takeValues m stack session
      let (more, stack, session) := takeValues n stack session
      (values ++ more, stack, session) := by
  induction m generalizing stack session with
  | zero => simp [takeValues]
  | succ m ih =>
    rw [Nat.add_right_comm]
    cases stack with
    | nil => simp only [takeValues, ih, List.cons_append]
    | cons value stack => simp only [takeValues, ih, List.cons_append]

theorem length_takeValues : (takeValues count stack session).1.length = count := by
  rw [takeValues_eq, List.length_append, List.length_take, Session.length_takeInputs]
  omega

theorem flags_takeValues : (takeValues count stack session).2.2.flags = session.flags := by
  rw [takeValues_eq]
  exact session.flags_takeInputs _

theorem takeValues_append (values : List Value) :
    takeValues values.length (values ++ stack) session = (values, stack, session) := by
  simp [takeValues_eq, Session.takeInputs]

/-- The values that a pop of this many has delivered; a single one stands for itself. -/
def delivered (count : Nat) (result : Value) : List Value :=
  if count = 1 then [result]
  else match result with
    | .list values => values
    | other => [other]

theorem delivered_bundle (values : List Value) :
    delivered values.length (bundle values) = values := by
  match values with
  | [] => rfl
  | [_] => rfl
  | _ :: _ :: _ => simp [delivered, bundle]

def inOrder (flags : Flags) (values : List Value) : List Value :=
  if flags.reversePopped then values.reverse else values

theorem length_inOrder (flags : Flags) (values : List Value) :
    (inOrder flags values).length = values.length := by
  unfold inOrder
  split <;> simp

theorem pop_eq :
    pop count stack session =
      (bundle (inOrder session.flags (takeValues count stack session).1),
        if session.flags.keepPopped then
          (takeValues count stack session).1 ++ (takeValues count stack session).2.1
        else (takeValues count stack session).2.1,
        (takeValues count stack session).2.2) := by
  rw [← flags_takeValues count stack session]
  rfl

theorem delivered_pop :
    delivered count (pop count stack session).1 =
      inOrder session.flags (takeValues count stack session).1 := by
  have length : (inOrder session.flags (takeValues count stack session).1).length = count := by
    rw [length_inOrder, length_takeValues]
  have whole := delivered_bundle (inOrder session.flags (takeValues count stack session).1)
  rw [length] at whole
  rw [pop_eq]
  exact whole

/-- What a pop that removes its values comes to. -/
structure Removes : Prop where
  /-- The stack from the top down, and values of the input for those that are missing. -/
  delivered : delivered count (pop count stack session).1 =
    inOrder session.flags (stack.take count ++ (session.takeInputs (count - stack.length)).1)
  length : (Stack.delivered count (pop count stack session).1).length = count
  remaining : (pop count stack session).2.1 = stack.drop count
  reads : (pop count stack session).2.2 = (session.takeInputs (count - stack.length)).2

/-- What two pops that remove their values, one after the other, have to do with one pop for both. -/
structure Splits : Prop where
  left : (pop (m + n) stack session).2 =
    (pop n (pop m stack session).2.1 (pop m stack session).2.2).2
  delivered : delivered (m + n) (pop (m + n) stack session).1 =
    if session.flags.reversePopped then
      delivered n (pop n (pop m stack session).2.1 (pop m stack session).2.2).1 ++
        delivered m (pop m stack session).1
    else
      delivered m (pop m stack session).1 ++
        delivered n (pop n (pop m stack session).2.1 (pop m stack session).2.2).1
  removes : ∀ count, Removes count stack session

/-- What a pop that retains its values leaves, and what the same pop finds there. -/
structure Retains : Prop where
  /-- From the bottom up: the values of the input, the last one first, and the stack as it was. -/
  left : (pop count stack session).2.1.reverse =
    (session.takeInputs (count - stack.length)).1.reverse ++ stack.reverse
  enough : count ≤ stack.length → (pop count stack session).2 = (stack, session)
  again : pop count (pop count stack session).2.1 (pop count stack session).2.2 =
    pop count stack session

variable {count m n stack session}

theorem pop_of_removing (removing : session.flags.keepPopped = false) :
    pop count stack session =
      (bundle (inOrder session.flags (takeValues count stack session).1),
        (takeValues count stack session).2) := by
  rw [pop_eq, removing]
  rfl

theorem pop_of_retaining (retaining : session.flags.keepPopped = true) :
    pop count stack session =
      (bundle (inOrder session.flags (takeValues count stack session).1),
        (takeValues count stack session).1 ++ (takeValues count stack session).2.1,
        (takeValues count stack session).2.2) := by
  rw [pop_eq, retaining]
  rfl

theorem removes_of_removing (removing : session.flags.keepPopped = false) :
    Removes count stack session where
  delivered := by rw [delivered_pop, takeValues_eq]
  length := by rw [delivered_pop, length_inOrder, length_takeValues]
  remaining := by rw [pop_of_removing removing, takeValues_eq]
  reads := by rw [pop_of_removing removing, takeValues_eq]

/-- Popping `m + n` values is popping `m` of them and then `n`, wherever the stack runs out. -/
theorem pop_splits (m n : Nat) (stack : Stack) (session : Session)
    (removing : session.flags.keepPopped = false) : Splits m n stack session := by
  have flags := flags_takeValues m stack session
  have first : (pop m stack session).2 = (takeValues m stack session).2 := by
    rw [pop_of_removing removing]
  have second : (pop n (pop m stack session).2.1 (pop m stack session).2.2).2 =
      (takeValues n (takeValues m stack session).2.1 (takeValues m stack session).2.2).2 := by
    rw [first, pop_of_removing (flags ▸ removing)]
  refine ⟨?_, ?_, fun count => removes_of_removing removing⟩
  · rw [second, pop_of_removing removing, takeValues_add]
  · rw [delivered_pop, delivered_pop, delivered_pop, first, flags, takeValues_add]
    unfold inOrder
    split
    · exact List.reverse_append
    · rfl

theorem pop_splits_backfilled :
    let session := Session.initial [.ofInt 10, .ofInt 20] { reversePopped := true } .closed
    session.flags.keepPopped = false ∧ Splits 2 2 [.ofInt 1] session ∧
      (pop 4 [.ofInt 1] session).1 = .list [.ofInt 10, .ofInt 20, .ofInt 10, .ofInt 1] :=
  ⟨rfl, pop_splits 2 2 _ _ rfl, rfl⟩

/-- A pop that retains what it has taken can be repeated: the second one delivers the same, leaves the
same, and reads nothing. -/
theorem pop_again (count : Nat) (stack : Stack) (session : Session)
    (retaining : session.flags.keepPopped = true) : Retains count stack session := by
  refine ⟨?_, ?_, ?_⟩
  · rw [pop_of_retaining retaining, takeValues_eq]
    by_cases enough : count ≤ stack.length
    · rw [Nat.sub_eq_zero_of_le enough]
      simp [Session.takeInputs]
    · have short : stack.length ≤ count := by omega
      simp [List.take_of_length_le short, List.drop_of_length_le short]
  · intro enough
    rw [pop_of_retaining retaining, takeValues_eq, Nat.sub_eq_zero_of_le enough]
    simp [Session.takeInputs]
  · have flags := flags_takeValues count stack session
    have found := takeValues_append (takeValues count stack session).2.1
      (takeValues count stack session).2.2 (takeValues count stack session).1
    rw [length_takeValues] at found
    rw [pop_of_retaining retaining, pop_of_retaining (flags ▸ retaining), found, flags]

theorem pop_again_backfilled :
    let session := Session.initial [.ofInt 10, .ofInt 20] { keepPopped := true } .closed
    session.flags.keepPopped = true ∧ Retains 3 [.ofInt 1] session ∧
      (pop 3 [.ofInt 1] session).2.1 = [.ofInt 1, .ofInt 10, .ofInt 20] :=
  ⟨rfl, pop_again 3 _ _ rfl, rfl⟩

end Stack

end Terse
