import Terse.Proofs.Lazy.Routine

/-! What a sequence by a routine calls. The calls of its generator are told apart from all others by
what they are made in: a pull of its buffer. They are the calls of the routine, as many as there have
been pulls, whatever the actions are that have led to these. -/
namespace Terse

variable {σ α β : Type} {code : Code σ}

namespace Machine

/-- Of the calls that are logged, those that are made while the generator of this buffer runs. -/
def pullLog (code : Code σ) (id : Nat) : (rounds : Nat) → Recorder σ
  | 0 => fun _ _ => []
  | rounds + 1 => fun q machine =>
    match q with
    | .invoke f args => (code.body f args).log (engine code rounds) (pullLog code id rounds) machine
    | .realize other demand =>
      realizeLog (engine code rounds)
        (if other = id then engineLog code rounds else pullLog code id rounds) other demand rounds
        machine
    | q => respondLog code rounds (engine code rounds) (pullLog code id rounds) q machine

def PullLogs (code : Code σ) (id : Nat) (action : Action σ α) (before : Machine σ)
    (result : Except Failure α) (log : List Event) (after : Machine σ) : Prop :=
  ∃ rounds, run code rounds action before = .ofResult result after ∧
    action.log (engine code rounds) (pullLog code id rounds) before = log

end Machine

open Machine

/-- So many more calls have been made as there have been pulls. -/
def Routine.Accounts (routine : Routine) (id : Nat) (before : Machine σ) (log : List Event)
    (after : Machine σ) : Prop :=
  routine.callsTo (before.store.buffer id).pulls ++ callsIn log =
    routine.callsTo (after.store.buffer id).pulls

theorem callsIn_ofPull (id : Nat) (result : Except Failure (Option (Value × Generator))) :
    callsIn (Event.ofPull id result) = [] := by
  rcases result with e | _ | ⟨value, rest⟩ <;> simp [Event.ofPull, callsIn]

namespace Routine.Accounts

variable {routine : Routine} {id : Nat} {before between after : Machine σ} {first second : List Event}

theorem rest (same : after.store.buffer id = before.store.buffer id) :
    routine.Accounts id before [] after := by
  rw [Accounts, same]
  exact List.append_nil _

theorem trans (one : routine.Accounts id before first between)
    (two : routine.Accounts id between second after) :
    routine.Accounts id before (first ++ second) after := by
  rw [Accounts, callsIn_append, ← List.append_assoc, one, two]

end Routine.Accounts

def AccountsWithin (code : Code σ) (routine : Routine) (id rounds : Nat) : Prop :=
  ∀ {q : Request σ} {before result after}, engine code rounds q before = .ofResult result after →
    before.store.Performs routine id →
      routine.Accounts id before (pullLog code id rounds q before) after

namespace AccountsWithin

variable {routine : Routine} {id rounds : Nat} {before after : Machine σ}

theorem run (within : AccountsWithin code routine id rounds) (sound : routine.Sound code)
    {action : Action σ α} {result : Except Failure α}
    (ended : action.run (engine code rounds) before = .ofResult result after)
    (performs : before.store.Performs routine id) :
    routine.Accounts id before (action.log (engine code rounds) (pullLog code id rounds) before)
      after := by
  induction action generalizing before with
  | answer a =>
    obtain ⟨_, rfl⟩ := Outcome.eq_of_answer ended
    exact .rest rfl
  | fail e =>
    obtain ⟨_, rfl⟩ := Outcome.eq_of_failure ended
    exact .rest rfl
  | ask q resume ih =>
    simp only [Action.run] at ended
    simp only [Action.log]
    rcases (engine code rounds q before).out_or_ended with out | ⟨reply, between, replied⟩
    · rw [out] at ended
      cases result <;> cases ended
    · have first := within replied performs
      have performs' := (ends_request.mpr ⟨rounds, replied⟩).performs sound performs
      cases reply <;> rw [replied] at ended ⊢ <;> exact first.trans (ih _ ended performs')

/-- A pull of the buffer makes the calls of the routine, and a pull of another one makes only those of
the pulls that it leads to. -/
theorem pull (within : AccountsWithin code routine id rounds) (sound : routine.Sound code)
    {other : Nat} {generator : Generator} {result : Except Failure (Option (Value × Generator))}
    (state : (before.store.buffer other).state = .ready generator)
    (ended : generator.next.run (engine code rounds)
      (before.updateBuffer other (·.withState .running)) = .ofResult result after)
    (performs : before.store.Performs routine id) :
    routine.Accounts id before
      (generator.next.log (engine code rounds)
          (if other = id then engineLog code rounds else pullLog code id rounds)
          (before.updateBuffer other (·.withState .running)) ++
        Event.ofPull other result)
      (after.updateBuffer other (·.afterPull generator result)) := by
  rw [Routine.Accounts, callsIn_append, callsIn_ofPull, List.append_nil]
  by_cases own : other = id
  · subst own
    obtain ⟨log, logged, calls⟩ := sound.pulled performs.2 state
      (before.updateBuffer other (·.withState .running))
    have here : Logs code generator.next (before.updateBuffer other (·.withState .running)) result
        (Machine.log code rounds generator.next (before.updateBuffer other (·.withState .running)))
        after := ⟨rounds, ended, rfl⟩
    obtain ⟨rfl, rfl⟩ := logged.ends.unique here.ends
    rw [if_pos rfl, logged.ends.buffer_settled state, routine.callsTo_afterPull state, ← calls]
    exact congrArg (_ ++ callsIn ·) (here.unique logged)
  · have during := within.run sound ended (performs.begun other)
    have begun : (before.updateBuffer other (·.withState .running)).store.buffer id =
        before.store.buffer id := Store.buffer_update_of_ne (Ne.symm own) _
    have settled : (after.updateBuffer other (·.afterPull generator result)).store.buffer id =
        after.store.buffer id := Store.buffer_update_of_ne (Ne.symm own) _
    rw [if_neg own, settled, ← begun]
    exact during

theorem realize (within : AccountsWithin code routine id rounds) (sound : routine.Sound code)
    {other : Nat} {demand : Demand} {loops : Nat} {result : Except Failure Bool}
    (ended : Machine.realize (engine code rounds) other demand loops before =
      .ofResult result after)
    (performs : before.store.Performs routine id) :
    routine.Accounts id before
      (realizeLog (engine code rounds)
        (if other = id then engineLog code rounds else pullLog code id rounds) other demand loops
        before) after := by
  induction loops generalizing before with
  | zero => cases result <;> cases ended
  | succ loops ih =>
    cases unmet : demand.isMet (before.store.buffer other).realized.size with
    | true =>
      rw [realize_of_met unmet] at ended
      obtain ⟨_, rfl⟩ := Outcome.eq_of_answer ended
      simpa [realizeLog, unmet] using Routine.Accounts.rest rfl
    | false =>
      cases state : (before.store.buffer other).state with
      | running =>
        rw [realize_of_running unmet state] at ended
        obtain ⟨_, rfl⟩ := Outcome.eq_of_failure ended
        simpa [realizeLog, unmet, state] using Routine.Accounts.rest rfl
      | done =>
        rw [realize_of_done unmet state] at ended
        obtain ⟨_, rfl⟩ := Outcome.eq_of_answer ended
        simpa [realizeLog, unmet, state] using Routine.Accounts.rest rfl
      | ready generator =>
        rw [realize_of_ready unmet state] at ended
        simp only [realizeLog, unmet, state, Bool.false_eq_true, if_false]
        rcases (generator.next.run (engine code rounds)
            (before.updateBuffer other (·.withState .running))).out_or_ended with
          out | ⟨pull, between, pulled⟩
        · rw [out] at ended
          cases result <;> cases ended
        · have first := within.pull sound state pulled performs
          obtain ⟨_, performs'⟩ := (performs_law sound id).of_pull state ⟨rounds, pulled⟩
          rw [pulled] at ended ⊢
          rcases pull with e | _ | ⟨value, rest⟩
          · obtain ⟨_, rfl⟩ := Outcome.eq_of_failure ended
            exact first
          · obtain ⟨_, rfl⟩ := Outcome.eq_of_answer ended
            exact first
          · have both := first.trans (ih ended (performs' performs))
            rwa [List.append_assoc] at both

theorem settle (within : AccountsWithin code routine id rounds) (sound : routine.Sound code)
    {step : Nat → Action σ (Option Bool)} {loops index : Nat} {result : Except Failure Bool}
    (ended : Machine.settle (engine code rounds) step loops index before = .ofResult result after)
    (performs : before.store.Performs routine id) :
    routine.Accounts id before
      (settleLog (engine code rounds) (pullLog code id rounds) step loops index before) after := by
  induction loops generalizing index before with
  | zero => cases result <;> cases ended
  | succ loops ih =>
    simp only [Machine.settle] at ended
    simp only [settleLog]
    rcases ((step index).run (engine code rounds) before).out_or_ended with
      out | ⟨verdict, between, taken⟩
    · rw [out] at ended
      cases result <;> cases ended
    · have first := within.run sound taken performs
      have taken' : Ends code (step index) before verdict between := ⟨rounds, taken⟩
      rw [taken] at ended ⊢
      rcases verdict with e | _ | verdict
      · obtain ⟨_, rfl⟩ := Outcome.eq_of_failure ended
        exact first.trans (.rest rfl)
      · exact first.trans (ih ended (taken'.performs sound performs))
      · obtain ⟨_, rfl⟩ := Outcome.eq_of_answer ended
        exact first.trans (.rest rfl)

end AccountsWithin

section Accounts

variable {routine : Routine} {id : Nat} {before after : Machine σ}

theorem accounts_within (sound : routine.Sound code) (id rounds : Nat) :
    AccountsWithin code routine id rounds := by
  induction rounds with
  | zero =>
    intro q before result after ended
    cases result <;> cases ended
  | succ rounds ih =>
    intro q before result after ended performs
    cases q with
    | invoke f args => exact ih.run sound ended performs
    | produce producer pull => exact ih.run sound ended performs
    | realize other demand => exact ih.realize sound ended performs
    | compare left right => exact ih.settle sound ended performs
    | search handle needle => exact ih.settle sound ended performs
    | fill shape content => exact ih.run sound ended performs
    | suspend generator =>
      obtain ⟨_, rfl⟩ := Outcome.eq_of_answer ended
      exact .rest (Store.buffer_add_of_lt performs.1 generator)
    | _ =>
      obtain ⟨_, rfl⟩ := Outcome.eq_of_answer ended
      exact .rest rfl

theorem Routine.Sound.accounts (sound : routine.Sound code) {action : Action σ α}
    {result : Except Failure α} {log : List Event}
    (logged : PullLogs code id action before result log after)
    (performs : before.store.Performs routine id) : routine.Accounts id before log after := by
  obtain ⟨rounds, ended, rfl⟩ := logged
  exact AccountsWithin.run (accounts_within sound id rounds) sound ended performs

end Accounts

/-! Actions that only read. -/

/-- The request is for elements of this buffer, or has no calls made for it. -/
def Request.Reads (id : Nat) : Request σ → Prop
  | .realize buffer _ => buffer = id
  | .search handle needle => handle.buffer = id ∧ needle.sequence? = none
  | .invoke _ _ | .produce _ _ | .compare _ _ | .fill _ _ => False
  | _ => True

/-- Whatever the replies, the action calls nothing itself and realizes no other sequence. -/
inductive Action.Reads (id : Nat) : Action σ α → Prop where
  | answer (a : α) : Reads id (.answer a)
  | fail (e : Failure) : Reads id (.fail e)
  | ask {q : Request σ} {resume : Except Failure q.Reply → Action σ α} :
      q.Reads id → (∀ reply, Reads id (resume reply)) → Reads id (.ask q resume)

namespace Action.Reads

variable {id : Nat}

theorem bind {action : Action σ α} {f : α → Action σ β} (first : action.Reads id)
    (second : ∀ a, (f a).Reads id) : (action >>= f).Reads id := by
  induction first with
  | answer a => exact second a
  | fail e => exact .fail e
  | ask reads _ ih => exact .ask reads ih

theorem request {q : Request σ} (reads : q.Reads id) : (Action.request q).Reads id := by
  refine .ask reads fun reply => ?_
  cases reply with
  | ok reply => exact .answer reply
  | error e => exact .fail e

theorem ite {c : Prop} [Decidable c] {a b : Action σ α} (one : a.Reads id) (other : b.Reads id) :
    (if c then a else b).Reads id := by
  split
  · exact one
  · exact other

theorem realize (id : Nat) (demand : Demand) : (Action.realize id demand : Action σ Bool).Reads id :=
  have reads : (Request.realize id demand : Request σ).Reads id := rfl
  request reads

theorem store : (Action.store : Action σ Store).Reads id :=
  have reads : (Request.store : Request σ).Reads id := trivial
  request reads

theorem get (handle : Handle) (index : Nat) :
    (handle.get index : Action σ (Option Value)).Reads handle.buffer :=
  (realize _ _).bind fun _ => .ite (store.bind fun _ => .answer _) (.answer _)

theorem next (handle : Handle) :
    (handle.next : Action σ (Option Value × Handle)).Reads handle.buffer :=
  (get handle _).bind fun _ => .ite (.answer _) (.answer _)

theorem length (handle : Handle) : (handle.length : Action σ Nat).Reads handle.buffer :=
  (realize _ _).bind fun _ => store.bind fun _ => .answer _

theorem force (handle : Handle) : (handle.force : Action σ (List Value)).Reads handle.buffer :=
  (realize _ _).bind fun _ => store.bind fun _ => .answer _

theorem searchAt (handle : Handle) {needle : Value} (single : needle.sequence? = none)
    (index : Nat) :
    (handle.searchAt needle index : Action σ (Option Bool)).Reads handle.buffer := by
  refine (get handle index).bind fun item => ?_
  cases item with
  | none => exact .answer _
  | some item =>
    have equals : (item.equals needle : Action σ Bool) = pure (item.same needle) := by
      rw [Value.equals, single]
      cases item.sequence? <;> rfl
    change (item.equals needle >>= _).Reads _
    rw [equals]
    exact Reads.bind (.answer _) fun _ => .ite (.answer _) (.answer _)

theorem contains (handle : Handle) {needle : Value} (single : needle.sequence? = none) :
    ((Sequence.lazy handle).contains needle : Action σ Bool).Reads handle.buffer :=
  request ⟨rfl, single⟩

theorem log_eq {rounds : Nat} {action : Action σ α} {machine : Machine σ} (reads : action.Reads id)
    (each : ∀ {q : Request σ} {machine}, q.Reads id →
      engineLog code rounds q machine = pullLog code id rounds q machine) :
    action.log (engine code rounds) (engineLog code rounds) machine =
      action.log (engine code rounds) (pullLog code id rounds) machine := by
  induction reads generalizing machine with
  | answer a => rfl
  | fail e => rfl
  | @ask q resume reads _ ih =>
    simp only [log, each reads]
    cases engine code rounds q machine with
    | answer reply after => exact congrArg _ (ih _)
    | failure e after => exact congrArg _ (ih _)
    | outOfRounds => rfl

end Action.Reads

theorem Machine.settleLog_congr {engine : Engine σ} {few many : Recorder σ}
    {step : Nat → Action σ (Option Bool)}
    (each : ∀ index machine,
      (step index).log engine few machine = (step index).log engine many machine)
    (loops index : Nat) (machine : Machine σ) :
    settleLog engine few step loops index machine =
      settleLog engine many step loops index machine := by
  induction loops generalizing index machine with
  | zero => rfl
  | succ loops ih =>
    simp only [settleLog, each]
    split
    · rw [ih]
    · rfl

theorem engineLog_eq_pullLog {id rounds : Nat} {q : Request σ} {machine : Machine σ}
    (reads : q.Reads id) : engineLog code rounds q machine = pullLog code id rounds q machine := by
  induction rounds generalizing q machine with
  | zero => rfl
  | succ rounds ih =>
    cases q with
    | realize other demand =>
      obtain rfl : other = id := reads
      simp only [engineLog, pullLog, if_true]
      rfl
    | search handle needle =>
      obtain ⟨rfl, single⟩ := reads
      exact settleLog_congr (fun index _ => (Action.Reads.searchAt handle single index).log_eq ih) _ _ _
    | invoke | produce | compare | fill => cases reads
    | _ => rfl

theorem Machine.Logs.pullLogs {id : Nat} {action : Action σ α} {before after : Machine σ}
    {result : Except Failure α} {log : List Event} (reads : action.Reads id)
    (logged : Logs code action before result log after) :
    PullLogs code id action before result log after := by
  obtain ⟨rounds, ended, rfl⟩ := logged
  exact ⟨rounds, ended, (reads.log_eq engineLog_eq_pullLog).symm⟩

/-- From one machine to another by actions that end and by pulls of other buffers that begin, with
what is logged for this buffer: of an action that only reads it all that is logged, of any other
action what is logged while the generator of the buffer runs. -/
inductive Machine.Usage (code : Code σ) (id : Nat) (first : Machine σ) :
    List Event → Machine σ → Prop where
  | start : Usage code id first [] first
  | read {α : Type} {action : Action σ α} {result : Except Failure α} {log more : List Event}
      {between after : Machine σ} : Usage code id first log between → action.Reads id →
      Logs code action between result more after → Usage code id first (log ++ more) after
  | other {α : Type} {action : Action σ α} {result : Except Failure α} {log more : List Event}
      {between after : Machine σ} : Usage code id first log between →
      PullLogs code id action between result more after → Usage code id first (log ++ more) after
  | begun {other : Nat} {generator : Generator} {log : List Event} {between : Machine σ} :
      Usage code id first log between → other ≠ id →
      (between.store.buffer other).state = .ready generator →
      Usage code id first log (between.updateBuffer other (·.withState .running))

namespace Routine

variable {routine : Routine} {before made first last : Machine σ} {log : List Event} {handle : Handle}

theorem Sound.usage (sound : routine.Sound code) {id : Nat} (usage : Usage code id first log last)
    (performs : first.store.Performs routine id) :
    last.store.Performs routine id ∧ routine.Accounts id first log last := by
  induction usage with
  | start => exact ⟨performs, .rest rfl⟩
  | read _ reads logged ih =>
    exact ⟨logged.ends.performs sound ih.1, ih.2.trans (sound.accounts (logged.pullLogs reads) ih.1)⟩
  | other _ logged ih =>
    have ended : Ends code _ _ _ _ := logged.imp fun _ logged => logged.1
    exact ⟨ended.performs sound ih.1, ih.2.trans (sound.accounts logged ih.1)⟩
  | @begun other _ _ between _ differs _ ih =>
    have same : (between.updateBuffer other (·.withState .running)).store.buffer id =
        between.store.buffer id := Store.buffer_update_of_ne (Ne.symm differs) _
    refine ⟨ih.1.begun other, ?_⟩
    rw [Accounts, same]
    exact ih.2

theorem performs_suspended
    (built : Ends code (Action.suspend (routine.generator 0)) before (.ok handle) made) :
    made.store.buffer handle.buffer = .ofGenerator (routine.generator 0) ∧
      made.store.Performs routine handle.buffer := by
  obtain ⟨answered, rfl⟩ := ends_suspend.mp built
  cases answered
  have fresh := Store.buffer_add_self before.store (routine.generator 0)
  refine ⟨fresh, by simp [Store.add], ?_⟩
  rw [fresh]
  refine ⟨fun i inside => absurd inside (Nat.not_lt_zero i), ?_, ?_⟩
  · rintro _ ⟨⟩
    rfl
  · rintro ⟨⟩

/-- The generator of a sequence by a routine has made the calls of all pulls that there have been. -/
theorem Sound.calls (sound : routine.Sound code)
    (built : Ends code (Action.suspend (routine.generator 0)) before (.ok handle) made)
    (usage : Usage code handle.buffer made log last) :
    callsIn log = routine.callsTo (last.store.buffer handle.buffer).pulls := by
  obtain ⟨fresh, performs⟩ := performs_suspended built
  obtain ⟨_, accounts⟩ := sound.usage usage performs
  rw [Accounts, fresh] at accounts
  exact accounts

end Routine

end Terse
