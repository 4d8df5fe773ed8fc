import Terse.Proofs.Machine.Ending

namespace Terse

variable {σ α : Type}

inductive Event where
  | called (f : Callable) (args : List Value)
  | produced (buffer : Nat) (value : Value)

def producedFor (id : Nat) (log : List Event) : List Value :=
  log.filterMap fun
    | .produced buffer value => if buffer = id then some value else none
    | .called _ _ => none

theorem producedFor_append (id : Nat) (first second : List Event) :
    producedFor id (first ++ second) = producedFor id first ++ producedFor id second := by
  simp [producedFor]

theorem producedFor_called (id : Nat) (f : Callable) (args : List Value) (log : List Event) :
    producedFor id (.called f args :: log) = producedFor id log := by
  simp [producedFor]

abbrev Recorder (σ : Type) := Request σ → Machine σ → List Event

def Action.log (engine : Engine σ) (recorder : Recorder σ) :
    Action σ α → Machine σ → List Event
  | answer _, _ => []
  | fail _, _ => []
  | ask q resume, machine =>
    recorder q machine ++
      match engine q machine with
      | .answer reply machine => log engine recorder (resume (.ok reply)) machine
      | .failure e machine => log engine recorder (resume (.error e)) machine
      | .outOfRounds => []

namespace Machine

def realizeLog (engine : Engine σ) (recorder : Recorder σ) (id : Nat) (demand : Demand) :
    (rounds : Nat) → Machine σ → List Event
  | 0, _ => []
  | rounds + 1, machine =>
    let buffer := machine.store.buffer id
    if demand.isMet buffer.realized.size then []
    else
      match buffer.state with
      | .ready generator =>
        let pulled := machine.updateBuffer id (·.withState .running)
        generator.next.log engine recorder pulled ++
          match generator.next.run engine pulled with
          | .answer (some (value, rest)) machine =>
            .produced id value ::
              realizeLog engine recorder id demand rounds
                (machine.updateBuffer id (·.produce value rest))
          | _ => []
      | _ => []

def settleLog (engine : Engine σ) (recorder : Recorder σ) (step : Nat → Action σ (Option Bool)) :
    (rounds : Nat) → (index : Nat) → Machine σ → List Event
  | 0, _, _ => []
  | rounds + 1, index, machine =>
    (step index).log engine recorder machine ++
      match (step index).run engine machine with
      | .answer none machine => settleLog engine recorder step rounds (index + 1) machine
      | _ => []

def respondLog (code : Code σ) (rounds : Nat) (engine : Engine σ) (recorder : Recorder σ) :
    Recorder σ
  | .invoke f args, machine => .called f args :: (code.body f args).log engine recorder machine
  | .produce producer pull, machine => (code.produce producer pull).log engine recorder machine
  | .realize id demand, machine => realizeLog engine recorder id demand rounds machine
  | .compare left right, machine =>
    settleLog engine recorder (left.compareAt right) rounds 0 machine
  | .search handle needle, machine =>
    settleLog engine recorder (handle.searchAt needle) rounds 0 machine
  | .fill shape content, machine => (Shape.fillSlots shape content).log engine recorder machine
  | _, _ => []

def engineLog (code : Code σ) : (rounds : Nat) → Recorder σ
  | 0 => fun _ _ => []
  | rounds + 1 => respondLog code rounds (engine code rounds) (engineLog code rounds)

def log (code : Code σ) (rounds : Nat) (action : Action σ α) (machine : Machine σ) : List Event :=
  action.log (engine code rounds) (engineLog code rounds) machine

/-- The action ends with this result, leaves this machine, and is logged like this on the way. -/
def Logs (code : Code σ) (action : Action σ α) (before : Machine σ) (result : Except Failure α)
    (log : List Event) (after : Machine σ) : Prop :=
  ∃ rounds, run code rounds action before = .ofResult result after ∧
    Machine.log code rounds action before = log

variable {code : Code σ} {action : Action σ α} {before after : Machine σ}
  {result : Except Failure α}

theorem Logs.ends {log : List Event} (logged : Logs code action before result log after) :
    Ends code action before result after :=
  let ⟨rounds, ended, _⟩ := logged
  ⟨rounds, ended⟩

theorem Ends.logs (ended : Ends code action before result after) :
    ∃ log, Logs code action before result log after :=
  let ⟨rounds, ended⟩ := ended
  ⟨_, rounds, ended, rfl⟩

end Machine

def Buffer.afterPull (generator : Generator)
    (result : Except Failure (Option (Value × Generator))) (buffer : Buffer) : Buffer :=
  match result with
  | .ok (some (value, rest)) => buffer.produce value rest
  | .ok none => buffer.withState .done
  | .error _ => buffer.withState (.ready generator.afterFailure)

def Event.ofPull (id : Nat) : Except Failure (Option (Value × Generator)) → List Event
  | .ok (some (value, _)) => [.produced id value]
  | _ => []

open Machine in
/-- A relation between the machine before, the log and the machine after, that holds of all that
runs are made of. A pull is shown for runs within `rounds`, given the relation for these. -/
structure RunLaw (code : Code σ) (law : Machine σ → List Event → Machine σ → Prop) : Prop where
  rest : ∀ machine, law machine [] machine
  append : ∀ {before between after first second},
    law before first between → law between second after → law before (first ++ second) after
  called : ∀ {before log after} f args, law before log after →
    law before (.called f args :: log) after
  suspended : ∀ machine generator,
    law machine [] { machine with store := (machine.store.add generator).2 }
  sessionSet : ∀ machine session, law machine [] { machine with session := session }
  hostSet : ∀ machine host, law machine [] { machine with host := host }
  pulled : ∀ {rounds},
    (∀ {α : Type} {action : Action σ α} {before result after},
      run code rounds action before = .ofResult result after →
        law before (log code rounds action before) after) →
    ∀ {id generator before result after},
      (before.store.buffer id).state = .ready generator →
      run code rounds generator.next (before.updateBuffer id (·.withState .running)) =
        .ofResult result after →
      law before
        (log code rounds generator.next (before.updateBuffer id (·.withState .running)) ++
          Event.ofPull id result)
        (after.updateBuffer id (·.afterPull generator result))

namespace Machine

variable {code : Code σ} {law : Machine σ → List Event → Machine σ → Prop}

def Obeys (code : Code σ) (law : Machine σ → List Event → Machine σ → Prop) (rounds : Nat) : Prop :=
  ∀ {q : Request σ} {before result after},
    engine code rounds q before = .ofResult result after →
      law before (engineLog code rounds q before) after

theorem Obeys.run (isLaw : RunLaw code law) {rounds : Nat} (obeys : Obeys code law rounds)
    {action : Action σ α} {before after : Machine σ} {result : Except Failure α}
    (ended : run code rounds action before = .ofResult result after) :
    law before (log code rounds action before) after := by
  unfold Machine.run at ended
  unfold Machine.log
  induction action generalizing before with
  | answer a =>
    obtain ⟨rfl, rfl⟩ := Outcome.eq_of_answer ended
    exact isLaw.rest after
  | fail e =>
    obtain ⟨rfl, rfl⟩ := Outcome.eq_of_failure ended
    exact isLaw.rest after
  | ask q resume ih =>
    simp only [Action.run] at ended
    simp only [Action.log]
    rcases (engine code rounds q before).out_or_ended with out | ⟨reply, between, replied⟩
    · rw [out] at ended
      cases result <;> cases ended
    · have first := obeys replied
      cases reply <;> rw [replied] at ended ⊢ <;> exact isLaw.append first (ih _ ended)

theorem Obeys.realize (isLaw : RunLaw code law) {rounds : Nat} (obeys : Obeys code law rounds)
    {id : Nat} {demand : Demand} {loops : Nat} {before after : Machine σ}
    {result : Except Failure Bool}
    (ended : realize (engine code rounds) id demand loops before = .ofResult result after) :
    law before
      (realizeLog (engine code rounds) (engineLog code rounds) id demand loops before) after := by
  induction loops generalizing before with
  | zero => cases result <;> cases ended
  | succ loops ih =>
    cases unmet : demand.isMet (before.store.buffer id).realized.size with
    | true =>
      rw [realize_of_met unmet] at ended
      obtain ⟨rfl, rfl⟩ := Outcome.eq_of_answer ended
      simpa [realizeLog, unmet] using isLaw.rest after
    | false =>
      cases state : (before.store.buffer id).state with
      | running =>
        rw [realize_of_running unmet state] at ended
        obtain ⟨rfl, rfl⟩ := Outcome.eq_of_failure ended
        simpa [realizeLog, unmet, state] using isLaw.rest after
      | done =>
        rw [realize_of_done unmet state] at ended
        obtain ⟨rfl, rfl⟩ := Outcome.eq_of_answer ended
        simpa [realizeLog, unmet, state] using isLaw.rest after
      | ready generator =>
        rw [realize_of_ready unmet state] at ended
        simp only [realizeLog, unmet, state, Bool.false_eq_true, if_false]
        rcases (generator.next.run (engine code rounds)
            (before.updateBuffer id (·.withState .running))).out_or_ended with
          out | ⟨pull, between, pulled⟩
        · rw [out] at ended
          cases result <;> cases ended
        · have first := isLaw.pulled (fun ended => obeys.run isLaw ended) state pulled
          rw [pulled] at ended ⊢
          rcases pull with e | _ | ⟨value, rest⟩
          · obtain ⟨rfl, rfl⟩ := Outcome.eq_of_failure ended
            exact first
          · obtain ⟨rfl, rfl⟩ := Outcome.eq_of_answer ended
            exact first
          · have both := isLaw.append first (ih ended)
            rwa [List.append_assoc] at both

theorem Obeys.settle (isLaw : RunLaw code law) {rounds : Nat} (obeys : Obeys code law rounds)
    {step : Nat → Action σ (Option Bool)} {loops index : Nat} {before after : Machine σ}
    {result : Except Failure Bool}
    (ended : settle (engine code rounds) step loops index before = .ofResult result after) :
    law before
      (settleLog (engine code rounds) (engineLog code rounds) step loops index before) after := by
  induction loops generalizing index before with
  | zero => cases result <;> cases ended
  | succ loops ih =>
    simp only [Machine.settle] at ended
    simp only [settleLog]
    rcases ((step index).run (engine code rounds) before).out_or_ended with
      out | ⟨verdict, between, taken⟩
    · rw [out] at ended
      cases result <;> cases ended
    · have first := obeys.run isLaw taken
      rw [taken] at ended ⊢
      rcases verdict with e | _ | verdict
      · obtain ⟨rfl, rfl⟩ := Outcome.eq_of_failure ended
        exact isLaw.append first (isLaw.rest _)
      · exact isLaw.append first (ih ended)
      · obtain ⟨rfl, rfl⟩ := Outcome.eq_of_answer ended
        exact isLaw.append first (isLaw.rest _)

theorem obeys (isLaw : RunLaw code law) (rounds : Nat) : Obeys code law rounds := by
  induction rounds with
  | zero =>
    intro q before result after ended
    cases result <;> cases ended
  | succ rounds ih =>
    intro q before result after ended
    cases q with
    | invoke f args => exact isLaw.called f args (ih.run isLaw ended)
    | produce producer pull => exact ih.run isLaw ended
    | realize id demand => exact ih.realize isLaw ended
    | compare left right => exact ih.settle isLaw ended
    | search handle needle => exact ih.settle isLaw ended
    | fill shape content => exact ih.run isLaw ended
    | suspend generator =>
      obtain ⟨rfl, rfl⟩ := Outcome.eq_of_answer ended
      exact isLaw.suspended before generator
    | store =>
      obtain ⟨rfl, rfl⟩ := Outcome.eq_of_answer ended
      exact isLaw.rest after
    | session =>
      obtain ⟨rfl, rfl⟩ := Outcome.eq_of_answer ended
      exact isLaw.rest after
    | setSession session =>
      obtain ⟨rfl, rfl⟩ := Outcome.eq_of_answer ended
      exact isLaw.sessionSet before session
    | host =>
      obtain ⟨rfl, rfl⟩ := Outcome.eq_of_answer ended
      exact isLaw.rest after
    | setHost state =>
      obtain ⟨rfl, rfl⟩ := Outcome.eq_of_answer ended
      exact isLaw.hostSet before state

end Machine

/-- A law of the steps that runs are made of is a law of every run that ends. -/
theorem RunLaw.of_logs {code : Code σ} {law : Machine σ → List Event → Machine σ → Prop}
    (isLaw : RunLaw code law) {action : Action σ α} {before after : Machine σ}
    {result : Except Failure α} {log : List Event}
    (logged : Machine.Logs code action before result log after) : law before log after := by
  obtain ⟨rounds, ended, rfl⟩ := logged
  exact Machine.Obeys.run isLaw (Machine.obeys isLaw rounds) ended

/-- And so it is of a pull, from before it begins until its result has been put down. -/
theorem RunLaw.of_pull {code : Code σ} {law : Machine σ → List Event → Machine σ → Prop}
    (isLaw : RunLaw code law) {id : Nat} {generator : Generator} {before after : Machine σ}
    {result : Except Failure (Option (Value × Generator))}
    (state : (before.store.buffer id).state = .ready generator)
    (ended : Machine.Ends code generator.next (before.updateBuffer id (·.withState .running)) result
      after) : ∃ log, law before log (after.updateBuffer id (·.afterPull generator result)) := by
  obtain ⟨rounds, ended⟩ := ended
  exact ⟨_, isLaw.pulled (fun ended => isLaw.of_logs ⟨rounds, ended, rfl⟩) state ended⟩

end Terse
