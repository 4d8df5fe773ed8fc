import Terse.Proofs.Lazy.Reading
import Terse.Proofs.Machine.Logging

/-! Lazy sequences by a routine: each pull gives its item, makes its calls, and does nothing else, in
whatever machine. Such a sequence has its elements whoever reads it and whatever is done in between,
and what its generator calls depends on nothing but how many pulls there have been. -/
namespace Terse

variable {σ α : Type} {code : Code σ}

open Machine

/-- The pulls of a sequence, one after another: what each gives, which calls it makes, and the
generator that does so. -/
structure Routine where
  item : Nat → Option Value
  calls : Nat → List (Callable × List Value)
  generator : Nat → Generator
  ends : ∀ {i}, item i = none → item (i + 1) = none

namespace Routine

/-- As far as there are elements, the generators do just what the routine says. -/
def Sound (code : Code σ) (routine : Routine) : Prop :=
  ∀ i, (∀ j < i, (routine.item j).isSome) → ∀ machine, ∃ log,
    Logs code (routine.generator i).next machine
      (.ok ((routine.item i).map fun item => (item, routine.generator (i + 1)))) log machine ∧
    callsIn log = routine.calls i

theorem item_of_le (routine : Routine) {i later : Nat} (le : i ≤ later)
    (none_here : routine.item i = none) : routine.item later = none := by
  induction le with
  | refl => exact none_here
  | step _ ih => exact routine.ends ih

def callsTo (routine : Routine) (pulls : Nat) : List (Callable × List Value) :=
  (List.range pulls).flatMap routine.calls

theorem callsTo_succ (routine : Routine) (pulls : Nat) :
    routine.callsTo (pulls + 1) = routine.callsTo pulls ++ routine.calls pulls := by
  simp [callsTo, List.range_succ]

end Routine

/-- How many pulls a buffer has had, the one that has found the end included. -/
def Buffer.pulls (buffer : Buffer) : Nat :=
  buffer.realized.size + if buffer.state.isDone then 1 else 0

theorem Buffer.pulls_of_done {buffer : Buffer} (state : buffer.state = .done) :
    buffer.pulls = buffer.realized.size + 1 := by
  simp [pulls, state, BufferState.isDone]

theorem Buffer.pulls_of_ne_done {buffer : Buffer} (state : buffer.state ≠ .done) :
    buffer.pulls = buffer.realized.size := by
  cases found : buffer.state with
  | done => exact absurd found state
  | _ => simp [pulls, found, BufferState.isDone]

theorem Routine.callsTo_afterPull (routine : Routine) {buffer : Buffer} {generator : Generator}
    (state : buffer.state = .ready generator) :
    routine.callsTo ((buffer.withState .running).afterPull generator (.ok
        ((routine.item buffer.realized.size).map fun item =>
          (item, routine.generator (buffer.realized.size + 1))))).pulls =
      routine.callsTo buffer.pulls ++ routine.calls buffer.realized.size := by
  have rests : buffer.state ≠ .done := by simp [state]
  rw [Buffer.pulls_of_ne_done rests, ← routine.callsTo_succ]
  cases routine.item buffer.realized.size with
  | none => exact congrArg _ (Buffer.pulls_of_done rfl)
  | some item =>
    simp [Buffer.afterPull, Buffer.produce, Buffer.withState, Buffer.pulls, BufferState.isDone]

structure Buffer.Performs (routine : Routine) (buffer : Buffer) : Prop where
  elements : ∀ i < buffer.realized.size, buffer.realized[i]? = routine.item i
  ready : ∀ {generator}, buffer.state = .ready generator →
    generator = routine.generator buffer.realized.size
  finished : buffer.state = .done → routine.item buffer.realized.size = none

def Store.Performs (routine : Routine) (id : Nat) (store : Store) : Prop :=
  id < store.buffers.size ∧ (store.buffer id).Performs routine

section Performs

variable {routine : Routine} {buffer : Buffer} {store : Store} {id : Nat}

namespace Buffer.Performs

theorem present (performs : buffer.Performs routine) :
    ∀ i < buffer.realized.size, (routine.item i).isSome := by
  intro i inside
  rw [← performs.elements i inside, Array.getElem?_eq_getElem inside]
  rfl

theorem running (performs : buffer.Performs routine) :
    (buffer.withState .running).Performs routine :=
  ⟨performs.elements, nofun, nofun⟩

theorem afterPull (performs : buffer.Performs routine) (generator : Generator) :
    (buffer.afterPull generator (.ok ((routine.item buffer.realized.size).map fun item =>
      (item, routine.generator (buffer.realized.size + 1))))).Performs routine := by
  cases here : routine.item buffer.realized.size with
  | none => exact ⟨performs.elements, nofun, fun _ => here⟩
  | some item =>
    refine ⟨fun i inside => ?_, ?_, nofun⟩
    · simp only [Buffer.afterPull, produce, Option.map_some, Array.size_push] at inside ⊢
      by_cases last : i = buffer.realized.size
      · rw [last, here, Array.getElem?_push_size]
      · rw [Array.getElem?_push_lt (by omega), ← performs.elements i (by omega)]
        exact (Array.getElem?_eq_getElem _).symm
    · rintro _ ⟨⟩
      simp [Buffer.afterPull, produce]

end Buffer.Performs

namespace Store.Performs

theorem update (performs : store.Performs routine id) {other : Nat} {f : Buffer → Buffer}
    (own : other = id → (f (store.buffer id)).Performs routine) :
    (store.update other f).Performs routine id := by
  refine ⟨by rw [size_update]; exact performs.1, ?_⟩
  by_cases same : other = id
  · subst same
    rw [buffer_update_self performs.1]
    exact own rfl
  · rw [buffer_update_of_ne (Ne.symm same)]
    exact performs.2

theorem begun (performs : store.Performs routine id) (other : Nat) :
    (store.update other (·.withState .running)).Performs routine id :=
  performs.update fun _ => performs.2.running

theorem add (performs : store.Performs routine id) (generator : Generator) :
    (store.add generator).2.Performs routine id := by
  refine ⟨Nat.lt_of_lt_of_le performs.1 (Grows.add store generator).size_le, ?_⟩
  rw [buffer_add_of_lt performs.1]
  exact performs.2

end Store.Performs

theorem Routine.Sound.pulled (sound : routine.Sound code) (performs : buffer.Performs routine)
    {generator : Generator} (state : buffer.state = .ready generator) (machine : Machine σ) :
    ∃ log, Logs code generator.next machine (.ok ((routine.item buffer.realized.size).map
      fun item => (item, routine.generator (buffer.realized.size + 1)))) log machine ∧
      callsIn log = routine.calls buffer.realized.size := by
  rw [performs.ready state]
  exact sound _ performs.present machine

theorem performs_law (sound : routine.Sound code) (id : Nat) :
    RunLaw code fun before _ after =>
      before.store.Performs routine id → after.store.Performs routine id where
  rest _ performs := performs
  append one two performs := two (one performs)
  called _ _ law performs := law performs
  suspended _ generator performs := performs.add generator
  sessionSet _ _ performs := performs
  hostSet _ _ performs := performs
  pulled {_} within {other generator before result after} state pulled performs := by
    refine Store.Performs.update (within pulled (performs.begun other)) ?_
    rintro rfl
    obtain ⟨_, logged, _⟩ := sound.pulled performs.2 state
      (before.updateBuffer other (·.withState .running))
    obtain ⟨rfl, rfl⟩ := logged.ends.unique ⟨_, pulled⟩
    rw [buffer_begun state]
    exact performs.2.running.afterPull generator

theorem Machine.Ends.performs {action : Action σ α} {before after : Machine σ}
    {result : Except Failure α} (ended : Ends code action before result after)
    (sound : routine.Sound code) (performs : before.store.Performs routine id) :
    after.store.Performs routine id := by
  obtain ⟨log, logged⟩ := ended.logs
  exact (performs_law sound id).of_logs logged performs

theorem Machine.Reaches.performs {before after : Machine σ} (reaches : Reaches code before after)
    (sound : routine.Sound code) (performs : before.store.Performs routine id) :
    after.store.Performs routine id := by
  induction reaches with
  | refl => exact performs
  | tail _ step ih =>
    cases step with
    | ended ended => exact ended.performs sound ih
    | begun state => exact ih.begun _

end Performs

/-- Whoever asks this buffer in this machine is given these elements. -/
structure Machine.Gives (code : Code σ) (id : Nat) (elements : Nat → Option Value)
    (machine : Machine σ) : Prop where
  realized : ∀ i < (machine.store.buffer id).realized.size,
    (machine.store.buffer id).realized[i]? = elements i
  finished : (machine.store.buffer id).state = .done →
    elements (machine.store.buffer id).realized.size = none
  get : ∀ {reader : Handle}, reader.buffer = id → ∀ i, ∃ after,
    Ends code (reader.get i) machine (.ok (elements i)) after
  next : ∀ {reader : Handle}, reader.buffer = id → ∃ after,
    Ends code reader.next machine (.ok (elements reader.cursor,
      if (elements reader.cursor).isSome then { reader with cursor := reader.cursor + 1 }
      else reader)) after
  force : ∀ {reader : Handle} {list : List Value}, reader.buffer = id →
    (∀ i, elements i = list[i]?) → ∃ after, Ends code reader.force machine (.ok list) after
  length : ∀ {reader : Handle} {list : List Value}, reader.buffer = id →
    (∀ i, elements i = list[i]?) → ∃ after, Ends code reader.length machine (.ok list.length) after

/-- The sequence of this buffer has these elements, whatever is done from here on: except while its
own generator is running, it can be asked for them. -/
def Machine.Consists (code : Code σ) (id : Nat) (elements : Nat → Option Value)
    (machine : Machine σ) : Prop :=
  ∀ ⦃after⦄, Reaches code machine after → (after.store.buffer id).state ≠ .running →
    after.Gives code id elements

section Elements

variable {routine : Routine} {id : Nat} {before after : Machine σ}

theorem Routine.Sound.realize_ends (sound : routine.Sound code)
    (performs : before.store.Performs routine id)
    (idle : (before.store.buffer id).state ≠ .running) (demand : Demand) (bound : Nat)
    (bounded : ∀ size, demand.isMet size = false → (routine.item size).isSome → size < bound) :
    ∃ reached after, Ends code (Action.realize id demand) before (.ok reached) after := by
  obtain ⟨reached, after, ended, _⟩ := realize_ends_within bound (And.right)
    (fun {machine generator} (fit : machine.store.Performs routine id ∧ _) unmet state => by
      obtain ⟨_, logged, _⟩ := sound.pulled fit.1.2 state
        (machine.updateBuffer id (·.withState .running))
      obtain ⟨_, filled⟩ := (performs_law sound id).of_pull state logged.ends
      refine ⟨_, _, logged.ends, fun there => bounded _ unmet ?_, filled fit.1, ?_⟩
      · rwa [Option.isSome_map] at there
      · rw [logged.ends.buffer_settled state]
        exact Buffer.afterPull_state_ne_running _ _ _) ⟨performs, idle⟩
  exact ⟨reached, after, ended⟩

theorem Routine.item_of_read (routine : Routine) {buffer : Buffer}
    (performs : buffer.Performs routine) {i : Nat}
    (atEnd : buffer.realized[i]? = none → buffer.state = .done) :
    buffer.realized[i]? = routine.item i := by
  cases found : buffer.realized[i]? with
  | none =>
    have behind := Array.getElem?_eq_none_iff.mp found
    exact (routine.item_of_le behind (performs.finished (atEnd found))).symm
  | some item =>
    rw [← found]
    exact performs.elements i (Array.getElem?_eq_some_iff.mp found).1

theorem Routine.Sound.gives (sound : routine.Sound code)
    (performs : before.store.Performs routine id)
    (idle : (before.store.buffer id).state ≠ .running) : before.Gives code id routine.item := by
  have get {reader : Handle} (same : reader.buffer = id) (i : Nat) :
      ∃ after, Ends code (reader.get i) before (.ok (routine.item i)) after := by
    subst same
    obtain ⟨reached, after, realized⟩ := sound.realize_ends performs idle (.upTo (i + 1)) (i + 1)
      fun size unmet _ => by simpa [Demand.isMet] using unmet
    obtain ⟨item, ended⟩ := Ends.get realized
    obtain ⟨rfl, atEnd⟩ := ended.get_item
    rw [routine.item_of_read (ended.performs sound performs).2 atEnd] at ended
    exact ⟨after, ended⟩
  have all {reader : Handle} {list : List Value} (same : reader.buffer = id)
      (elements : ∀ i, routine.item i = list[i]?) :
      ∃ reached after, Ends code (Action.realize reader.buffer .all) before (.ok reached) after := by
    subst same
    refine sound.realize_ends performs idle .all list.length fun size _ there => ?_
    rw [elements, Option.isSome_iff_ne_none, ne_eq, List.getElem?_eq_none_iff] at there
    omega
  have whole {reader : Handle} {list : List Value} {after : Machine σ} (same : reader.buffer = id)
      (elements : ∀ i, routine.item i = list[i]?) (performs : after.store.Performs routine id)
      (state : (after.store.buffer reader.buffer).state = .done) :
      after.store.realized reader = list := by
    subst same
    refine List.ext_getElem? fun i => ?_
    rw [← elements, ← routine.item_of_read performs.2 fun _ => state]
    exact Array.getElem?_toList
  refine ⟨performs.2.elements, performs.2.finished, get, fun same => ?_, fun same elements => ?_,
    fun same elements => ?_⟩
  · obtain ⟨after, ended⟩ := get same _
    exact ⟨after, ended.next⟩
  · obtain ⟨reached, after, realized⟩ := all same elements
    have ended := Ends.force realized
    have state := ended.force_items.2
    rw [whole same elements (ended.performs sound performs) state] at ended
    exact ⟨after, ended⟩
  · obtain ⟨reached, after, realized⟩ := all same elements
    have ended := Ends.length realized
    have state := ended.length_size.2
    rw [← whole same elements (ended.performs sound performs) state]
    exact ⟨after, by simpa [Store.realized] using ended⟩

theorem Routine.Sound.consists (sound : routine.Sound code)
    (performs : before.store.Performs routine id) : before.Consists code id routine.item :=
  fun _ reaches idle => sound.gives (reaches.performs sound performs) idle

end Elements

end Terse
