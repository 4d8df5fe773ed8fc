import Terse.Machine.Run

/-! Runs that end. A run that has ended ends in the same way with more rounds, so the relation
between the machine before, the result and the machine after leaves the rounds out. -/
namespace Terse

variable {σ α β : Type}

namespace Outcome

def ofResult (result : Except Failure α) (after : Machine σ) : Outcome σ α :=
  match result with
  | .ok a => .answer a after
  | .error e => .failure e after

/-- The outcomes agree, unless the first has run out of rounds. -/
def Below (fewer more : Outcome σ α) : Prop :=
  fewer = .outOfRounds ∨ more = fewer

theorem eq_of_below {fewer more : Outcome σ α} {result : Except Failure α} {after : Machine σ}
    (below : fewer.Below more) (ended : fewer = .ofResult result after) :
    more = .ofResult result after := by
  rcases below with out | same
  · cases result <;> simp [ofResult, out] at ended
  · rw [same, ended]

theorem ofResult_inj {first second : Except Failure α} {m n : Machine σ}
    (same : (ofResult first m : Outcome σ α) = ofResult second n) : first = second ∧ m = n := by
  cases first <;> cases second <;> simp_all [ofResult]

theorem eq_of_answer {a : α} {result : Except Failure α} {m after : Machine σ}
    (same : (answer a m : Outcome σ α) = ofResult result after) : result = .ok a ∧ after = m := by
  cases result <;> simp_all [ofResult]

theorem eq_of_failure {e : Failure} {result : Except Failure α} {m after : Machine σ}
    (same : (failure e m : Outcome σ α) = ofResult result after) :
    result = .error e ∧ after = m := by
  cases result <;> simp_all [ofResult]

theorem out_or_ended (outcome : Outcome σ α) :
    outcome = .outOfRounds ∨ ∃ result after, outcome = ofResult result after := by
  cases outcome with
  | answer a after => exact .inr ⟨.ok a, after, rfl⟩
  | failure e after => exact .inr ⟨.error e, after, rfl⟩
  | outOfRounds => exact .inl rfl

end Outcome

def Engine.Below (fewer more : Engine σ) : Prop :=
  ∀ q machine, (fewer q machine).Below (more q machine)

theorem Action.run_below {fewer more : Engine σ} (below : fewer.Below more) (action : Action σ α)
    (machine : Machine σ) : (action.run fewer machine).Below (action.run more machine) := by
  induction action generalizing machine with
  | answer a => exact .inr rfl
  | fail e => exact .inr rfl
  | ask q resume ih =>
    simp only [run]
    rcases below q machine with out | same
    · exact .inl (by rw [out])
    · rw [same]
      cases fewer q machine with
      | answer reply after => exact ih _ after
      | failure e after => exact ih _ after
      | outOfRounds => exact .inl rfl

namespace Machine

/-! One round of realizing, by what there is to do. -/

section Round

variable {engine : Engine σ} {id rounds : Nat} {demand : Demand} {machine : Machine σ}

theorem realize_of_met (met : demand.isMet (machine.store.buffer id).realized.size = true) :
    realize engine id demand (rounds + 1) machine = .answer true machine := by
  simp [realize, met]

theorem realize_of_running
    (unmet : demand.isMet (machine.store.buffer id).realized.size = false)
    (state : (machine.store.buffer id).state = .running) :
    realize engine id demand (rounds + 1) machine = .failure .reentrantPull machine := by
  simp [realize, unmet, state]

theorem realize_of_done
    (unmet : demand.isMet (machine.store.buffer id).realized.size = false)
    (state : (machine.store.buffer id).state = .done) :
    realize engine id demand (rounds + 1) machine = .answer false machine := by
  simp [realize, unmet, state]

theorem realize_of_ready {generator : Generator}
    (unmet : demand.isMet (machine.store.buffer id).realized.size = false)
    (state : (machine.store.buffer id).state = .ready generator) :
    realize engine id demand (rounds + 1) machine =
      match generator.next.run engine (machine.updateBuffer id (·.withState .running)) with
      | .answer (some (value, rest)) machine =>
        realize engine id demand rounds (machine.updateBuffer id (·.produce value rest))
      | .answer none machine => .answer false (machine.updateBuffer id (·.withState .done))
      | .failure e machine =>
        .failure e (machine.updateBuffer id (·.withState (.ready generator.afterFailure)))
      | .outOfRounds => .outOfRounds := by
  rcases pulled : generator.next.run engine (machine.updateBuffer id (·.withState .running)) with
    ⟨_ | ⟨value, rest⟩, after⟩ | ⟨e, after⟩ | _
  all_goals simp only [realize, unmet, state, pulled, Bool.false_eq_true, if_false]

end Round

theorem realize_below {fewer more : Engine σ} (below : fewer.Below more) (id : Nat)
    (demand : Demand) {few many : Nat} (le : few ≤ many) (machine : Machine σ) :
    (realize fewer id demand few machine).Below (realize more id demand many machine) := by
  induction few generalizing many machine with
  | zero => exact .inl rfl
  | succ few ih =>
    obtain ⟨many, rfl⟩ := Nat.exists_eq_succ_of_ne_zero (Nat.ne_zero_of_lt le)
    have le : few ≤ many := Nat.le_of_succ_le_succ le
    cases unmet : demand.isMet (machine.store.buffer id).realized.size with
    | true => exact .inr (by rw [realize_of_met unmet, realize_of_met unmet])
    | false =>
      cases state : (machine.store.buffer id).state with
      | running =>
        exact .inr (by rw [realize_of_running unmet state, realize_of_running unmet state])
      | done => exact .inr (by rw [realize_of_done unmet state, realize_of_done unmet state])
      | ready generator =>
        rw [realize_of_ready unmet state, realize_of_ready unmet state]
        rcases generator.next.run_below below
            (machine.updateBuffer id (·.withState .running)) with out | same
        · exact .inl (by rw [out])
        · rw [same]
          split
          · exact ih le _
          all_goals exact .inr rfl

theorem settle_below {fewer more : Engine σ} (below : fewer.Below more)
    (step : Nat → Action σ (Option Bool)) {few many : Nat} (le : few ≤ many) (index : Nat)
    (machine : Machine σ) :
    (settle fewer step few index machine).Below (settle more step many index machine) := by
  induction few generalizing many index machine with
  | zero => exact .inl rfl
  | succ few ih =>
    obtain ⟨many, rfl⟩ := Nat.exists_eq_succ_of_ne_zero (Nat.ne_zero_of_lt le)
    have le : few ≤ many := Nat.le_of_succ_le_succ le
    simp only [settle]
    rcases (step index).run_below below machine with out | same
    · exact .inl (by rw [out])
    · rw [same]
      split
      case h_2 => exact ih le _ _
      all_goals exact .inr rfl

theorem respond_below (code : Code σ) {fewer more : Engine σ} (below : fewer.Below more)
    {few many : Nat} (le : few ≤ many) :
    Engine.Below (respond code few fewer) (respond code many more) := by
  intro q machine
  cases q with
  | invoke f args => exact (code.body f args).run_below below machine
  | produce producer pull => exact (code.produce producer pull).run_below below machine
  | realize id demand => exact realize_below below id demand le machine
  | compare left right => exact settle_below below _ le 0 machine
  | search handle needle => exact settle_below below _ le 0 machine
  | fill shape content => exact (Shape.fillSlots shape content).run_below below machine
  | _ => exact .inr rfl

theorem engine_below (code : Code σ) {few many : Nat} (le : few ≤ many) :
    Engine.Below (engine code few) (engine code many) := by
  induction few generalizing many with
  | zero => exact fun _ _ => .inl rfl
  | succ few ih =>
    obtain ⟨many, rfl⟩ := Nat.exists_eq_succ_of_ne_zero (Nat.ne_zero_of_lt le)
    have le : few ≤ many := Nat.le_of_succ_le_succ le
    exact respond_below code (ih le) le

theorem run_of_le {code : Code σ} {few many : Nat} (le : few ≤ many) {action : Action σ α}
    {before after : Machine σ} {result : Except Failure α}
    (ended : run code few action before = .ofResult result after) :
    run code many action before = .ofResult result after :=
  Outcome.eq_of_below (action.run_below (engine_below code le) before) ended

/-- The action ends with this result and leaves this machine, given rounds enough. -/
def Ends (code : Code σ) (action : Action σ α) (before : Machine σ) (result : Except Failure α)
    (after : Machine σ) : Prop :=
  ∃ rounds, run code rounds action before = .ofResult result after

variable {code : Code σ}

theorem Ends.unique {action : Action σ α} {before after other : Machine σ}
    {first second : Except Failure α} (one : Ends code action before first after)
    (two : Ends code action before second other) : first = second ∧ after = other := by
  obtain ⟨few, one⟩ := one
  obtain ⟨many, two⟩ := two
  have one := run_of_le (Nat.le_max_left few many) one
  have two := run_of_le (Nat.le_max_right few many) two
  exact Outcome.ofResult_inj (one.symm.trans two)

end Machine

theorem Action.run_bind_eq_ofResult {engine : Engine σ} {action : Action σ α}
    {f : α → Action σ β} {before after : Machine σ} {result : Except Failure β} :
    (action >>= f).run engine before = .ofResult result after ↔
      (∃ a between, action.run engine before = .ofResult (.ok a) between ∧
        (f a).run engine between = .ofResult result after) ∨
      (∃ e, action.run engine before = .ofResult (.error e) after ∧ result = .error e) := by
  change (action.andThen f).run engine before = _ ↔ _
  rw [run_andThen]
  cases action.run engine before with
  | answer a between =>
    constructor
    · intro ended
      exact .inl ⟨a, between, rfl, ended⟩
    · rintro (⟨a, between, first, second⟩ | ⟨e, first, _⟩)
      · cases first
        exact second
      · cases first
  | failure e between => cases result <;> simp [Outcome.ofResult, eq_comm, and_comm]
  | outOfRounds => cases result <;> simp [Outcome.ofResult]

namespace Machine

variable {code : Code σ} {before after : Machine σ}

theorem ends_pure {a : α} {result : Except Failure α} :
    Ends code (pure a) before result after ↔ result = .ok a ∧ after = before := by
  constructor
  · rintro ⟨rounds, ended⟩
    exact Outcome.eq_of_answer ended
  · rintro ⟨rfl, rfl⟩
    exact ⟨0, rfl⟩

theorem ends_pure_ite {c : Prop} [Decidable c] {a b : α} {result : Except Failure α} :
    Ends code (if c then pure a else pure b) before result after ↔
      result = .ok (if c then a else b) ∧ after = before := by
  split <;> exact ends_pure

theorem ends_fail {e : Failure} {result : Except Failure α} :
    Ends code (.fail e) before result after ↔ result = .error e ∧ after = before := by
  constructor
  · rintro ⟨rounds, ended⟩
    exact Outcome.eq_of_failure ended
  · rintro ⟨rfl, rfl⟩
    exact ⟨0, rfl⟩

theorem ends_bind {action : Action σ α} {f : α → Action σ β} {result : Except Failure β} :
    Ends code (action >>= f) before result after ↔
      (∃ a between, Ends code action before (.ok a) between ∧
        Ends code (f a) between result after) ∨
      (∃ e, Ends code action before (.error e) after ∧ result = .error e) := by
  constructor
  · rintro ⟨rounds, ended⟩
    rcases Action.run_bind_eq_ofResult.mp ended with ⟨a, between, first, second⟩ | ⟨e, first, rfl⟩
    · exact .inl ⟨a, between, ⟨rounds, first⟩, rounds, second⟩
    · exact .inr ⟨e, ⟨rounds, first⟩, rfl⟩
  · rintro (⟨a, between, ⟨few, first⟩, many, second⟩ | ⟨e, ⟨rounds, first⟩, rfl⟩)
    · have first := run_of_le (Nat.le_max_left few many) first
      have second := run_of_le (Nat.le_max_right few many) second
      exact ⟨max few many, Action.run_bind_eq_ofResult.mpr (.inl ⟨a, between, first, second⟩)⟩
    · exact ⟨rounds, Action.run_bind_eq_ofResult.mpr (.inr ⟨e, first, rfl⟩)⟩

theorem ends_bind_ok {action : Action σ α} {f : α → Action σ β} {b : β} :
    Ends code (action >>= f) before (.ok b) after ↔
      ∃ a between, Ends code action before (.ok a) between ∧
        Ends code (f a) between (.ok b) after := by
  simp [ends_bind]

end Machine

end Terse
