import Terse.Proofs.Machine.Log
import Terse.Proofs.Value.LazyFree

namespace Terse

variable {σ α β : Type}

def callsIn (log : List Event) : List (Callable × List Value) :=
  log.filterMap fun
    | .called f args => some (f, args)
    | .produced _ _ => none

theorem callsIn_append (first second : List Event) :
    callsIn (first ++ second) = callsIn first ++ callsIn second := by
  simp [callsIn]

def Engine.LoggedAlike (engine : Engine σ) (few many : Recorder σ) : Prop :=
  ∀ q machine, engine q machine ≠ .outOfRounds → many q machine = few q machine

theorem Action.log_below {fewer more : Engine σ} {few many : Recorder σ} (below : fewer.Below more)
    (alike : fewer.LoggedAlike few many) {action : Action σ α} {machine : Machine σ}
    (ended : action.run fewer machine ≠ .outOfRounds) :
    action.log more many machine = action.log fewer few machine := by
  induction action generalizing machine with
  | answer a => rfl
  | fail e => rfl
  | ask q resume ih =>
    simp only [run] at ended
    simp only [log]
    rcases below q machine with out | same
    · simp [out] at ended
    · rw [same, alike q machine fun out => by simp [out] at ended]
      cases replied : fewer q machine with
      | answer reply after =>
        rw [replied] at ended
        exact congrArg _ (ih _ ended)
      | failure e after =>
        rw [replied] at ended
        exact congrArg _ (ih _ ended)
      | outOfRounds => rfl

theorem Action.log_andThen (engine : Engine σ) (recorder : Recorder σ) (action : Action σ α)
    (f : α → Action σ β) (machine : Machine σ) :
    (action.andThen f).log engine recorder machine =
      action.log engine recorder machine ++
        match action.run engine machine with
        | .answer a machine => (f a).log engine recorder machine
        | _ => [] := by
  induction action generalizing machine with
  | answer a => rfl
  | fail e => rfl
  | ask q resume ih =>
    simp only [andThen, log, run, List.append_assoc]
    cases engine q machine with
    | answer reply machine => exact congrArg _ (ih _ machine)
    | failure e machine => exact congrArg _ (ih _ machine)
    | outOfRounds => rfl

theorem Action.log_request (engine : Engine σ) (recorder : Recorder σ) (q : Request σ)
    (machine : Machine σ) :
    (Action.request q).log engine recorder machine = recorder q machine := by
  simp only [request, log]
  cases engine q machine <;> simp

theorem Action.log_bind_nil {engine : Engine σ} {recorder : Recorder σ} {action : Action σ α}
    {f : α → Action σ β} {machine : Machine σ}
    (first : action.log engine recorder machine = [])
    (second : ∀ a machine, (f a).log engine recorder machine = []) :
    (action >>= f).log engine recorder machine = [] := by
  change (action.andThen f).log engine recorder machine = []
  rw [log_andThen, first]
  cases action.run engine machine with
  | answer a after => exact second a after
  | failure e after => rfl
  | outOfRounds => rfl

namespace Machine

theorem realizeLog_below {fewer more : Engine σ} {few many : Recorder σ} (below : fewer.Below more)
    (alike : fewer.LoggedAlike few many) (id : Nat) (demand : Demand) {loops enough : Nat}
    (le : loops ≤ enough) {machine : Machine σ}
    (ended : realize fewer id demand loops machine ≠ .outOfRounds) :
    realizeLog more many id demand enough machine = realizeLog fewer few id demand loops machine := by
  induction loops generalizing enough machine with
  | zero => exact absurd rfl ended
  | succ loops ih =>
    obtain ⟨enough, rfl⟩ := Nat.exists_eq_succ_of_ne_zero (Nat.ne_zero_of_lt le)
    have le : loops ≤ enough := Nat.le_of_succ_le_succ le
    simp only [realizeLog]
    cases unmet : demand.isMet (machine.store.buffer id).realized.size with
    | true => rfl
    | false =>
      cases state : (machine.store.buffer id).state with
      | running => rfl
      | done => rfl
      | ready generator =>
        rw [realize_of_ready unmet state] at ended
        simp only [Bool.false_eq_true, if_false]
        have pulled : generator.next.run fewer (machine.updateBuffer id (·.withState .running)) ≠
            .outOfRounds := fun out => ended (by rw [out])
        rw [Action.log_below below alike pulled]
        rcases generator.next.run_below below
            (machine.updateBuffer id (·.withState .running)) with out | same
        · exact absurd out pulled
        · rw [same]
          split
          case h_1 answered =>
            rw [answered] at ended
            rw [ih le ended]
          case h_2 => rfl

theorem settleLog_below {fewer more : Engine σ} {few many : Recorder σ} (below : fewer.Below more)
    (alike : fewer.LoggedAlike few many) (step : Nat → Action σ (Option Bool)) {loops enough : Nat}
    (le : loops ≤ enough) {index : Nat} {machine : Machine σ}
    (ended : settle fewer step loops index machine ≠ .outOfRounds) :
    settleLog more many step enough index machine = settleLog fewer few step loops index machine := by
  induction loops generalizing enough index machine with
  | zero => exact absurd rfl ended
  | succ loops ih =>
    obtain ⟨enough, rfl⟩ := Nat.exists_eq_succ_of_ne_zero (Nat.ne_zero_of_lt le)
    have le : loops ≤ enough := Nat.le_of_succ_le_succ le
    simp only [settle] at ended
    simp only [settleLog]
    have taken : (step index).run fewer machine ≠ .outOfRounds := fun out => ended (by rw [out])
    rw [Action.log_below below alike taken]
    rcases (step index).run_below below machine with out | same
    · exact absurd out taken
    · rw [same]
      split
      case h_1 answered =>
        rw [answered] at ended
        rw [ih le ended]
      case h_2 => rfl

theorem respondLog_below (code : Code σ) {fewer more : Engine σ} {few many : Recorder σ}
    (below : fewer.Below more) (alike : fewer.LoggedAlike few many) {rounds enough : Nat}
    (le : rounds ≤ enough) :
    Engine.LoggedAlike (respond code rounds fewer) (respondLog code rounds fewer few)
      (respondLog code enough more many) := by
  intro q machine ended
  cases q with
  | invoke f args => exact congrArg _ (Action.log_below below alike ended)
  | produce producer pull => exact Action.log_below below alike ended
  | realize id demand => exact realizeLog_below below alike id demand le ended
  | compare left right => exact settleLog_below below alike _ le ended
  | search handle needle => exact settleLog_below below alike _ le ended
  | fill shape content => exact Action.log_below below alike ended
  | _ => rfl

theorem engineLog_below (code : Code σ) {few many : Nat} (le : few ≤ many) :
    Engine.LoggedAlike (engine code few) (engineLog code few) (engineLog code many) := by
  induction few generalizing many with
  | zero => exact fun _ _ ended => absurd rfl ended
  | succ few ih =>
    obtain ⟨many, rfl⟩ := Nat.exists_eq_succ_of_ne_zero (Nat.ne_zero_of_lt le)
    have le : few ≤ many := Nat.le_of_succ_le_succ le
    exact respondLog_below code (engine_below code le) (ih le) le

variable {code : Code σ} {action : Action σ α} {before between after : Machine σ}

theorem log_of_le {few many : Nat} (le : few ≤ many) {result : Except Failure α}
    (ended : run code few action before = .ofResult result after) :
    log code many action before = log code few action before := by
  refine Action.log_below (engine_below code le) (engineLog_below code le) fun out => ?_
  unfold run at ended
  rw [out] at ended
  cases result <;> cases ended

theorem Logs.unique {first second : Except Failure α} {one two : List Event} {other : Machine σ}
    (logged : Logs code action before first one after)
    (logged' : Logs code action before second two other) : one = two := by
  obtain ⟨few, ended, rfl⟩ := logged
  obtain ⟨many, ended', rfl⟩ := logged'
  rw [← log_of_le (Nat.le_max_left few many) ended, log_of_le (Nat.le_max_right few many) ended']

theorem Logs.pure (a : α) (machine : Machine σ) :
    Logs code (Pure.pure a) machine (.ok a) [] machine :=
  ⟨0, rfl, rfl⟩

theorem Logs.bind {f : α → Action σ β} {a : α} {result : Except Failure β} {one two : List Event}
    (first : Logs code action before (.ok a) one between)
    (second : Logs code (f a) between result two after) :
    Logs code (action >>= f) before result (one ++ two) after := by
  obtain ⟨few, ended, rfl⟩ := first
  obtain ⟨many, ended', rfl⟩ := second
  have ran := run_of_le (Nat.le_max_left few many) ended
  have ran' := run_of_le (Nat.le_max_right few many) ended'
  refine ⟨max few many, Action.run_bind_eq_ofResult.mpr (.inl ⟨a, between, ran, ran'⟩), ?_⟩
  rw [← log_of_le (Nat.le_max_left few many) ended, ← log_of_le (Nat.le_max_right few many) ended']
  have both := Action.log_andThen (engine code (max few many)) (engineLog code (max few many))
    action f before
  unfold run at ran
  rw [ran] at both
  exact both

theorem Ends.logs_nothing {result : Except Failure α} (ended : Ends code action before result after)
    (nothing : ∀ rounds, log code rounds action before = []) :
    Logs code action before result [] after :=
  let ⟨rounds, ended⟩ := ended
  ⟨rounds, ended, nothing rounds⟩

end Machine

namespace Value.LazyFree

open Machine

variable {code : Code σ} {machine : Machine σ}

theorem settleLog_nothing {engine : Engine σ} {recorder : Recorder σ}
    {step : Nat → Action σ (Option Bool)}
    (each : ∀ index machine, (step index).log engine recorder machine = []) (loops index : Nat)
    (machine : Machine σ) : settleLog engine recorder step loops index machine = [] := by
  induction loops generalizing index machine with
  | zero => rfl
  | succ loops ih =>
    simp only [settleLog, each, List.nil_append]
    split
    · exact ih _ _
    · rfl

theorem log_equals (code : Code σ) {v w : Value} (free : v.LazyFree) (free' : w.LazyFree)
    (rounds : Nat) (machine : Machine σ) : log code rounds (v.equals w) machine = [] := by
  induction rounds generalizing v w machine with
  | zero =>
    rw [Value.equals]
    split
    · exact Action.log_request _ _ _ _
    · rfl
  | succ rounds ih =>
    cases free with
    | @list items free =>
      cases free' with
      | @list others free' =>
        refine (Action.log_request _ _ _ _).trans (settleLog_nothing (fun index machine => ?_) _ _ _)
        rw [compareAt_items]
        cases here : items[index]? with
        | none => cases others[index]? <;> rfl
        | some v =>
          cases there : others[index]? with
          | none => rfl
          | some w =>
            refine Action.log_bind_nil ?_ fun verdict machine => by cases verdict <;> rfl
            exact ih (free v (List.mem_of_getElem? here)) (free' w (List.mem_of_getElem? there)) _
      | _ => rfl
    | _ => rfl

theorem logs_equals {v w : Value} (free : v.LazyFree) (free' : w.LazyFree) :
    Logs code (v.equals w) machine (.ok (v.same w)) [] machine :=
  (free.equals free').logs_nothing fun rounds => log_equals code free free' rounds machine

theorem logs_truth {v : Value} (free : v.LazyFree) :
    Logs code v.truth machine (.ok v.plainTruth) [] machine := by
  cases free <;> exact .pure _ _

end Value.LazyFree

end Terse
