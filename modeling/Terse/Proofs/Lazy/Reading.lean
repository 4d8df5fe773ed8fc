import Terse.Proofs.Lazy.Growth
import Terse.Proofs.Machine.Rules

namespace Terse

variable {σ α : Type} {code : Code σ}

namespace Machine

/-! Reads as realizing and looking up. -/

section Equations

variable (rounds : Nat) (handle : Handle) (before : Machine σ)

theorem run_realize (id : Nat) (demand : Demand) :
    run code (rounds + 1) (Action.realize id demand) before =
      realize (engine code rounds) id demand rounds before :=
  Action.run_request _ _ _

theorem run_get (index : Nat) :
    run code (rounds + 1) (handle.get index) before =
      match realize (engine code rounds) handle.buffer (.upTo (index + 1)) rounds before with
      | .answer true after => .answer (after.store.buffer handle.buffer).realized[index]? after
      | .answer false after => .answer none after
      | .failure e after => .failure e after
      | .outOfRounds => .outOfRounds := by
  rw [← run_realize]
  change ((Action.realize _ _).andThen _).run _ _ = _
  rw [Action.run_andThen, run]
  rcases (Action.realize handle.buffer (.upTo (index + 1))).run (engine code (rounds + 1)) before with
    ⟨_ | _, after⟩ | ⟨e, after⟩ | _ <;> rfl

theorem run_length :
    run code (rounds + 1) handle.length before =
      match realize (engine code rounds) handle.buffer .all rounds before with
      | .answer _ after => .answer (after.store.buffer handle.buffer).realized.size after
      | .failure e after => .failure e after
      | .outOfRounds => .outOfRounds := by
  rw [← run_realize]
  change ((Action.realize _ _).andThen _).run _ _ = _
  rw [Action.run_andThen, run]
  cases (Action.realize handle.buffer .all).run (engine code (rounds + 1)) before <;> rfl

theorem run_force :
    run code (rounds + 1) handle.force before =
      match realize (engine code rounds) handle.buffer .all rounds before with
      | .answer _ after => .answer (after.store.realized handle) after
      | .failure e after => .failure e after
      | .outOfRounds => .outOfRounds := by
  rw [← run_realize]
  change ((Action.realize _ _).andThen _).run _ _ = _
  rw [Action.run_andThen, run]
  cases (Action.realize handle.buffer .all).run (engine code (rounds + 1)) before <;> rfl

end Equations

theorem realize_answer {rounds loops id : Nat} {demand : Demand} {before after : Machine σ}
    {reached : Bool}
    (ended : realize (engine code rounds) id demand loops before = .answer reached after) :
    demand.isMet (after.store.buffer id).realized.size = reached ∧
      (reached = false → (after.store.buffer id).state = .done) := by
  induction loops generalizing before with
  | zero => cases ended
  | succ loops ih =>
    cases unmet : demand.isMet (before.store.buffer id).realized.size with
    | true =>
      rw [realize_of_met unmet] at ended
      cases ended
      exact ⟨unmet, nofun⟩
    | false =>
      cases state : (before.store.buffer id).state with
      | running =>
        rw [realize_of_running unmet state] at ended
        cases ended
      | done =>
        rw [realize_of_done unmet state] at ended
        cases ended
        exact ⟨unmet, fun _ => state⟩
      | ready generator =>
        rw [realize_of_ready unmet state] at ended
        split at ended
        case h_1 => exact ih ended
        case h_2 between pulled =>
          cases ended
          -- The buffer has rested while the generator found out that there is nothing more.
          have finished : Ends code generator.next (before.updateBuffer id (·.withState .running))
              (.ok none) between := ⟨rounds, pulled⟩
          rw [finished.buffer_settled state]
          exact ⟨unmet, fun _ => rfl⟩
        all_goals cases ended

theorem run_get_of_lt {machine : Machine σ} {handle : Handle} {index : Nat}
    (here : index < (machine.store.buffer handle.buffer).realized.size) (rounds : Nat) :
    run code (rounds + 2) (handle.get index) machine =
      .answer (machine.store.buffer handle.buffer).realized[index]? machine := by
  rw [run_get, realize_of_met]
  exact decide_eq_true (Nat.succ_le_of_lt here)

theorem run_get_of_done {machine : Machine σ} {handle : Handle} {index : Nat}
    (state : (machine.store.buffer handle.buffer).state = .done)
    (behind : (machine.store.buffer handle.buffer).realized.size ≤ index) (rounds : Nat) :
    run code (rounds + 2) (handle.get index) machine = .answer none machine := by
  rw [run_get, realize_of_done _ state]
  simpa [Demand.isMet] using Nat.lt_succ_of_le behind

/-- A read answers what the buffer holds afterwards; nothing only at the end of the sequence. -/
theorem Ends.get_item {handle : Handle} {index : Nat} {before after : Machine σ}
    {item : Option Value} (ended : Ends code (handle.get index) before (.ok item) after) :
    item = (after.store.buffer handle.buffer).realized[index]? ∧
      (item = none → (after.store.buffer handle.buffer).state = .done) := by
  obtain ⟨_ | rounds, ended⟩ := ended
  · cases ended
  rw [run_get] at ended
  split at ended
  case h_1 between realized =>
    cases ended
    have enough := (realize_answer realized).1
    simp only [Demand.isMet, decide_eq_true_eq] at enough
    refine ⟨rfl, fun missing => ?_⟩
    have outside := Array.getElem?_eq_none_iff.mp missing
    omega
  case h_2 between realized =>
    cases ended
    have less := realize_answer realized
    simp only [Demand.isMet, decide_eq_false_iff_not, Nat.not_le] at less
    exact ⟨(Array.getElem?_eq_none (by omega)).symm, fun _ => less.2 trivial⟩
  all_goals cases ended

theorem Ends.force_items {handle : Handle} {before after : Machine σ} {items : List Value}
    (ended : Ends code handle.force before (.ok items) after) :
    items = after.store.realized handle ∧ (after.store.buffer handle.buffer).state = .done := by
  obtain ⟨_ | rounds, ended⟩ := ended
  · cases ended
  rw [run_force] at ended
  split at ended
  case h_1 reached between realized =>
    cases ended
    have unmet := realize_answer realized
    exact ⟨rfl, unmet.2 unmet.1.symm⟩
  all_goals cases ended

theorem ends_force_done {handle : Handle} {machine : Machine σ}
    (state : (machine.store.buffer handle.buffer).state = .done) :
    Ends code handle.force machine (.ok (machine.store.realized handle)) machine :=
  ends_bind_ok.mpr ⟨false, machine, .realize_done rfl state,
    ends_bind_ok.mpr ⟨_, machine, ends_store.mpr ⟨rfl, rfl⟩, ends_pure.mpr ⟨rfl, rfl⟩⟩⟩

theorem Ends.length_size {handle : Handle} {before after : Machine σ} {length : Nat}
    (ended : Ends code handle.length before (.ok length) after) :
    length = (after.store.buffer handle.buffer).realized.size ∧
      (after.store.buffer handle.buffer).state = .done := by
  obtain ⟨_ | rounds, ended⟩ := ended
  · cases ended
  rw [run_length] at ended
  split at ended
  case h_1 reached between realized =>
    cases ended
    have unmet := realize_answer realized
    exact ⟨rfl, unmet.2 unmet.1.symm⟩
  all_goals cases ended

/-- Realizing ends if each pull on the way does, as far as elements that are asked for can be given. -/
theorem realize_ends_within {id : Nat} {demand : Demand} {fit : Machine σ → Prop} (bound : Nat)
    (idle : ∀ {machine}, fit machine → (machine.store.buffer id).state ≠ .running)
    (pulled : ∀ {machine generator}, fit machine →
      demand.isMet (machine.store.buffer id).realized.size = false →
      (machine.store.buffer id).state = .ready generator →
        ∃ result after, Ends code generator.next (machine.updateBuffer id (·.withState .running))
            (.ok result) after ∧
          (result.isSome → (machine.store.buffer id).realized.size < bound) ∧
          fit (after.updateBuffer id (·.afterPull generator (.ok result))))
    {before : Machine σ} (here : fit before) :
    ∃ reached after, Ends code (Action.realize id demand) before (.ok reached) after ∧ fit after := by
  -- The induction is on the number of elements that may be missing still.
  generalize missing : bound - (before.store.buffer id).realized.size = rest
  induction rest using Nat.strongRecOn generalizing before with
  | ind rest ih =>
    cases unmet : demand.isMet (before.store.buffer id).realized.size with
    | true => exact ⟨true, before, .realize_met unmet, here⟩
    | false =>
      cases state : (before.store.buffer id).state with
      | running => exact absurd state (idle here)
      | done => exact ⟨false, before, .realize_done unmet state, here⟩
      | ready generator =>
        obtain ⟨result, between, ended, below, here'⟩ := pulled here unmet state
        cases result with
        | none => exact ⟨false, _, .realize_over unmet state ended, here'⟩
        | some produced =>
          have below := below rfl
          have settled := ended.buffer_settled state
            (·.afterPull generator (.ok (some produced)))
          have size : ((between.updateBuffer id
              (·.afterPull generator (.ok (some produced)))).store.buffer id).realized.size =
              (before.store.buffer id).realized.size + 1 := by
            rw [settled]
            exact Array.size_push ..
          obtain ⟨reached, after, more, here''⟩ := ih
            (bound - ((before.store.buffer id).realized.size + 1)) (by omega) here' (by rw [size])
          exact ⟨reached, after, .realize_more unmet state ended more, here''⟩

theorem Ends.next {handle : Handle} {before after : Machine σ} {item : Option Value}
    (ended : Ends code (handle.get handle.cursor) before (.ok item) after) :
    Ends code handle.next before (.ok (item,
      if item.isSome then { handle with cursor := handle.cursor + 1 } else handle)) after :=
  ends_bind_ok.mpr ⟨item, after, ended, ends_pure_ite.mpr ⟨by split <;> rfl, rfl⟩⟩

theorem Ends.length {handle : Handle} {before after : Machine σ} {reached : Bool}
    (realized : Ends code (Action.realize handle.buffer .all) before (.ok reached) after) :
    Ends code handle.length before (.ok (after.store.buffer handle.buffer).realized.size) after :=
  ends_bind_ok.mpr ⟨reached, after, realized,
    ends_bind_ok.mpr ⟨_, after, ends_store.mpr ⟨rfl, rfl⟩, ends_pure.mpr ⟨rfl, rfl⟩⟩⟩

theorem Ends.force {handle : Handle} {before after : Machine σ} {reached : Bool}
    (realized : Ends code (Action.realize handle.buffer .all) before (.ok reached) after) :
    Ends code handle.force before (.ok (after.store.realized handle)) after :=
  ends_bind_ok.mpr ⟨reached, after, realized,
    ends_bind_ok.mpr ⟨_, after, ends_store.mpr ⟨rfl, rfl⟩, ends_pure.mpr ⟨rfl, rfl⟩⟩⟩

/-- One thing that can happen: an action ends, in whichever way, or a pull begins. -/
inductive Step (code : Code σ) (before : Machine σ) : Machine σ → Prop where
  | ended {α : Type} {action : Action σ α} {result : Except Failure α} {after : Machine σ} :
      Ends code action before result after → Step code before after
  | begun {id : Nat} {generator : Generator} :
      (before.store.buffer id).state = .ready generator →
        Step code before (before.updateBuffer id (·.withState .running))

/-- From one machine to another by actions that end and pulls that begin, in any order. So the points
within a pull are reached too: there is always some pull, begun and not yet ended. -/
def Reaches (code : Code σ) : Machine σ → Machine σ → Prop :=
  Relation.ReflTransGen (Step code)

/-- What a step leaves of a buffer: its elements, and all of it if it is done or running. -/
structure Keeps (id : Nat) (before after : Machine σ) : Prop where
  inside : id < after.store.buffers.size
  elements : (before.store.buffer id).realized.toList <+:
    (after.store.buffer id).realized.toList
  done : (before.store.buffer id).state = .done → after.store.buffer id = before.store.buffer id
  running : (before.store.buffer id).state = .running →
    after.store.buffer id = before.store.buffer id

theorem Step.keeps {before after : Machine σ} (step : Step code before after) {id : Nat}
    (inside : id < before.store.buffers.size) : Keeps id before after := by
  cases step with
  | ended ended =>
    obtain ⟨log, grows⟩ := ended.grows
    refine ⟨Nat.lt_of_lt_of_le inside grows.size_le, ?_, grows.done id inside, grows.running id⟩
    exact ⟨_, (grows.realized id inside).symm⟩
  | @begun pulled generator state =>
    refine ⟨by simpa [updateBuffer, Store.size_update] using inside, ?_, ?_, ?_⟩
    · by_cases same : id = pulled
      · subst same
        simp only [updateBuffer, Store.buffer_update_self inside]
        exact List.prefix_refl _
      · simp only [updateBuffer, Store.buffer_update_of_ne same]
        exact List.prefix_refl _
    all_goals
      intro known
      have same : id ≠ pulled := by
        rintro rfl
        simp [state] at known
      simp only [updateBuffer, Store.buffer_update_of_ne same]

theorem Reaches.keeps {before after : Machine σ} (reaches : Reaches code before after) {id : Nat}
    (inside : id < before.store.buffers.size) : Keeps id before after := by
  induction reaches with
  | refl => exact ⟨inside, List.prefix_refl _, fun _ => rfl, fun _ => rfl⟩
  | tail _ step ih =>
    have last := step.keeps ih.inside
    refine ⟨last.inside, ih.elements.trans last.elements, fun state => ?_, fun state => ?_⟩
    · have same := ih.done state
      rw [last.done (same ▸ state), same]
    · have same := ih.running state
      rw [last.running (same ▸ state), same]

/-- What a read has answered is answered at once by every later read of this index. -/
theorem Ends.get_final {handle other : Handle} {index : Nat} {before after later : Machine σ}
    {item : Option Value} (inside : handle.buffer < before.store.buffers.size)
    (ended : Ends code (handle.get index) before (.ok item) after)
    (reaches : Reaches code after later) (shared : other.buffer = handle.buffer) (rounds : Nat) :
    run code (rounds + 2) (other.get index) later = .answer item later := by
  obtain ⟨log, grows⟩ := ended.grows
  have keeps := reaches.keeps (Nat.lt_of_lt_of_le inside grows.size_le)
  obtain ⟨rfl, atEnd⟩ := ended.get_item
  cases found : (after.store.buffer handle.buffer).realized[index]? with
  | none =>
    have same := keeps.done (atEnd found)
    have behind := Array.getElem?_eq_none_iff.mp found
    rw [← shared] at same behind
    exact run_get_of_done (by rw [same, shared]; exact atEnd found) (by rwa [same]) rounds
  | some element =>
    have kept : (later.store.buffer handle.buffer).realized[index]? = some element := by
      rw [← Array.getElem?_toList] at found ⊢
      obtain ⟨more, grown⟩ := keeps.elements
      rw [← grown, List.getElem?_append_left (List.getElem?_eq_some_iff.mp found).1, found]
    rw [← shared] at kept
    rw [run_get_of_lt (Array.getElem?_eq_some_iff.mp kept).1, kept]

/-- Sequences only grow. Whatever an action does and however it ends, the elements that a buffer has
stay its first elements, and a buffer that is done stays as it is. So what a read has answered, an
element or nothing, is answered by every later read of this index, whatever has happened since and
through whichever handle, and at once. -/
theorem realized_append_only (code : Code σ) :
    (∀ {α : Type} {action : Action σ α} {before after : Machine σ} {result : Except Failure α},
      Ends code action before result after → ∀ id < before.store.buffers.size,
        (before.store.buffer id).realized.toList <+: (after.store.buffer id).realized.toList ∧
        ((before.store.buffer id).state = .done →
          after.store.buffer id = before.store.buffer id)) ∧
    (∀ {handle : Handle} {index : Nat} {before after later : Machine σ} {item : Option Value},
      handle.buffer < before.store.buffers.size →
      Ends code (handle.get index) before (.ok item) after → Reaches code after later →
      ∀ other : Handle, other.buffer = handle.buffer → ∀ rounds,
        run code (rounds + 2) (other.get index) later = .answer item later) := by
  constructor
  · intro α action before after result ended id inside
    have keeps := (Step.ended ended).keeps inside
    exact ⟨keeps.elements, keeps.done⟩
  · intro handle index before after later item inside ended reaches other shared rounds
    exact ended.get_final inside reaches shared rounds

end Machine

def threeIntegers : Machine Unit :=
  ⟨(Store.empty.add (.range 0 3)).2, .initial [] {} .closed, ()⟩

def idleCode : Code Unit := ⟨fun _ _ => .answer [], fun _ _ => .answer none⟩

/-- Element 1 is read, then all are forced; index 1 reads the same afterwards, also by a handle that
stands elsewhere. -/
theorem realized_append_only_three :
    ∃ after later, Machine.Ends idleCode (Handle.get ⟨0, 0⟩ 1) threeIntegers
        (.ok (some (.ofInt 1))) after ∧
      Machine.Ends idleCode (Handle.force ⟨0, 0⟩) after
        (.ok [.ofInt 0, .ofInt 1, .ofInt 2]) later ∧
      (after.store.buffer 0).realized.toList <+: (later.store.buffer 0).realized.toList ∧
      Machine.run idleCode 2 (Handle.get ⟨0, 7⟩ 1) later = .answer (some (.ofInt 1)) later := by
  have forced : ∃ after later, Machine.Ends idleCode (Handle.get ⟨0, 0⟩ 1) threeIntegers
      (.ok (some (.ofInt 1))) after ∧ Machine.Ends idleCode (Handle.force ⟨0, 0⟩) after
        (.ok [.ofInt 0, .ofInt 1, .ofInt 2]) later := ⟨_, _, ⟨9, rfl⟩, 9, rfl⟩
  obtain ⟨after, later, read, forced⟩ := forced
  have inside : 0 < after.store.buffers.size := by
    obtain ⟨log, grows⟩ := read.grows
    exact Nat.lt_of_lt_of_le (by decide) grows.size_le
  have append := Machine.realized_append_only idleCode
  exact ⟨after, later, read, forced, (append.1 forced 0 inside).1,
    append.2 (by decide) read (.single (.ended forced)) ⟨0, 7⟩ rfl 0⟩

end Terse
