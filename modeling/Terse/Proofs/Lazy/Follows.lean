import Terse.Proofs.Lazy.Reading
import Terse.Proofs.Lazy.Stream

/-! Sequences over callables that may fail at any call. Whatever fails, and whatever else is done in
between, a buffer holds a prefix of its stream, and its generator comes to the rest of it. -/
namespace Terse

variable {σ : Type} {meaning : Meaning} {code : Code σ}

/-- Every call that is covered fails or returns what it means. Which calls fail is open; the machine
may decide it. -/
def Meaning.Flaky (meaning : Meaning) (code : Code σ) : Prop :=
  ∀ {f args}, meaning.covers f args.length → (∀ arg ∈ args, arg.LazyFree) →
    ∀ {before after : Machine σ} {v : Value},
      Machine.Ends code (f.apply args) before (.ok v) after → v = meaning.value f args

def Meaning.Reliable (meaning : Meaning) (code : Code σ) : Prop :=
  ∀ {f args}, meaning.covers f args.length → (∀ arg ∈ args, arg.LazyFree) →
    ∀ before : Machine σ, ∃ after,
      Machine.Ends code (f.apply args) before (.ok (meaning.value f args)) after

theorem Meaning.Reliable.flaky (reliable : meaning.Reliable code) : meaning.Flaky code := by
  intro f args covered free before after v ended
  obtain ⟨_, returned⟩ := reliable covered free before
  exact Except.ok.inj (ended.unique returned).1

namespace Machine

/-- The action answers this or fails, and does answer if no call fails. -/
structure Answers (code : Code σ) (meaning : Meaning) {α : Type} (action : Action σ α)
    (before : Machine σ) (a : α) : Prop where
  right : ∀ {b after}, Ends code action before (.ok b) after → b = a
  sure : meaning.Reliable code → ∃ after, Ends code action before (.ok a) after

namespace Answers

variable {α β : Type} {before : Machine σ}

theorem of_ends {action : Action σ α} {a : α} {after : Machine σ}
    (ended : Ends code action before (.ok a) after) : Answers code meaning action before a :=
  ⟨fun other => Except.ok.inj (other.unique ended).1, fun _ => ⟨after, ended⟩⟩

theorem pure (a : α) : Answers code meaning (Pure.pure a) before a :=
  of_ends (ends_pure.mpr ⟨rfl, rfl⟩)

theorem ite (c : Prop) [Decidable c] (a b : α) :
    Answers code meaning (if c then Pure.pure a else Pure.pure b) before (if c then a else b) := by
  split
  · exact pure a
  · exact pure b

theorem bind {action : Action σ α} {f : α → Action σ β} {a : α} {b : β}
    (first : Answers code meaning action before a)
    (second : ∀ between, Answers code meaning (f a) between b) :
    Answers code meaning (action >>= f) before b where
  right ended := by
    obtain ⟨a', between, one, two⟩ := ends_bind_ok.mp ended
    obtain rfl := first.right one
    exact (second between).right two
  sure reliable := by
    obtain ⟨between, one⟩ := first.sure reliable
    obtain ⟨after, two⟩ := (second between).sure reliable
    exact ⟨after, ends_bind_ok.mpr ⟨a, between, one, two⟩⟩

theorem apply (flaky : meaning.Flaky code) {f : Callable} {args : List Value}
    (covered : meaning.covers f args.length) (free : ∀ arg ∈ args, arg.LazyFree) :
    Answers code meaning (f.apply args) before (meaning.value f args) :=
  ⟨flaky covered free, fun reliable => reliable covered free before⟩

/-- A pull answers what it comes to when no call fails, if the sources of a row do. -/
theorem next (flaky : meaning.Flaky code) {streams : Nat → Nat → Option Value}
    {generator : Generator} (known : generator.Known meaning)
    (cells : ∀ rows index, generator = .zip rows index →
      Answers code meaning (rows.mapM fun source => source.get index) before
        (rows.map fun source => source.look streams index)) :
    Answers code meaning generator.next before (generator.ideal meaning streams) := by
  cases generator with
  | range current stop => exact pure _
  | fixedPoint step initial previous =>
    cases initial with
    | some first => exact pure _
    | none =>
      cases previous with
      | none => exact pure _
      | some last =>
        obtain ⟨covered, _, free⟩ := known
        have free : ∀ arg ∈ [last], arg.LazyFree := by simpa using free last rfl
        apply (apply flaky covered free).bind
        intro between
        apply (of_ends ((meaning.lazyFree covered free).equals (free last (by simp)))).bind
        intro between
        exact ite _ _ _
  | scan combiner items accumulator index =>
    simp only [Generator.next, Generator.ideal]
    cases start : (accumulator <|> items.head?) with
    | none => exact pure none
    | some left =>
      cases here : items[index]? with
      | none => exact pure none
      | some right =>
        apply (apply flaky known.1 (Generator.free_of_scan known start here)).bind
        intro between
        exact pure _
  | collect step predicate current started =>
    obtain ⟨covered, tested, free⟩ := known
    have judged {candidate : Value} {between : Machine σ} (free : candidate.LazyFree) :
        Answers code meaning (do
          let verdict ← predicate.apply [candidate]
          if ← verdict.truth then
            return some (candidate, Generator.collect step predicate candidate true)
          else return none) between
          (if (meaning.value predicate [candidate]).plainTruth then
            some (candidate, .collect step predicate candidate true) else none) := by
      have free : ∀ arg ∈ [candidate], arg.LazyFree := by simpa using free
      apply (apply flaky tested free).bind
      intro between
      apply (of_ends (meaning.lazyFree tested free).truth).bind
      intro between
      exact ite _ _ _
    cases started with
    | false => exact judged free
    | true =>
      have freeArgs : ∀ arg ∈ [current], arg.LazyFree := by simpa using free
      apply (apply flaky covered freeArgs).bind
      intro between
      exact judged (meaning.lazyFree covered freeArgs)
  | zip rows index =>
    apply (cells rows index rfl).bind
    intro between
    exact ite _ _ _
  | native producer pulls => cases known

end Answers

end Machine

section Invariant

variable {known : Nat → Prop} {streams : Nat → Nat → Option Value}

/-- The buffer holds a prefix of its stream; nothing is left of the stream if it is done, and if it
is ready, its generator comes to what is left. -/
structure Buffer.Follows (meaning : Meaning) (known : Nat → Prop)
    (streams : Nat → Nat → Option Value) (id : Nat) (buffer : Buffer) : Prop where
  elements : ∀ i < buffer.realized.size, buffer.realized[i]? = streams id i
  whole : buffer.state = .done → ∀ i, buffer.realized.size ≤ i → streams id i = none
  callables : ∀ {generator}, buffer.state = .ready generator → generator.Known meaning
  sources : ∀ {generator}, buffer.state = .ready generator →
    ∀ source ∈ generator.sources, source < id ∧ known source
  rest : ∀ {generator}, buffer.state = .ready generator → ∀ pulls,
    generator.element meaning streams pulls = streams id (buffer.realized.size + pulls)

def Store.Follows (meaning : Meaning) (known : Nat → Prop) (streams : Nat → Nat → Option Value)
    (store : Store) : Prop :=
  ∀ id, known id → id < store.buffers.size ∧ (store.buffer id).Follows meaning known streams id

theorem Buffer.Follows.running {id : Nat} {buffer : Buffer}
    (follows : buffer.Follows meaning known streams id) :
    (buffer.withState .running).Follows meaning known streams id :=
  ⟨follows.elements, nofun, nofun, nofun, nofun⟩

theorem Buffer.follows_of_ready {id : Nat} {buffer : Buffer} {generator : Generator}
    (state : buffer.state = .ready generator)
    (elements : ∀ i < buffer.realized.size, buffer.realized[i]? = streams id i)
    (callables : generator.Known meaning)
    (sources : ∀ source ∈ generator.sources, source < id ∧ known source)
    (rest : ∀ pulls,
      generator.element meaning streams pulls = streams id (buffer.realized.size + pulls)) :
    buffer.Follows meaning known streams id := by
  refine ⟨elements, fun done => ?_, ?_, ?_, ?_⟩
  · simp [state] at done
  all_goals
    intro other ready
    cases state.symm.trans ready
  · exact callables
  · exact sources
  · exact rest

section Pull

variable {id : Nat} {buffer : Buffer} {generator : Generator}

theorem Buffer.Follows.done (follows : buffer.Follows meaning known streams id)
    (state : buffer.state = .ready generator)
    (finished : generator.ideal meaning streams = none) :
    (buffer.withState .done).Follows meaning known streams id := by
  refine ⟨follows.elements, fun _ i behind => ?_, ?_, ?_, ?_⟩
  · obtain ⟨pulls, rfl⟩ := Nat.exists_eq_add_of_le behind
    exact (follows.rest state pulls).symm.trans (Generator.element_of_over finished pulls)
  all_goals
    intro other ready
    cases ready

theorem Buffer.Follows.produce {value : Value} {further : Generator}
    (follows : buffer.Follows meaning known streams id) (state : buffer.state = .ready generator)
    (pulled : generator.ideal meaning streams = some (value, further)) :
    (buffer.produce value further).Follows meaning known streams id := by
  obtain ⟨sources_eq, callables⟩ := Generator.ideal_rest pulled
  have rest := follows.rest state
  have head : streams id buffer.realized.size = some value := by
    have first := rest 0
    simpa [Generator.element, pulled] using first.symm
  have size : (buffer.realized.push value).size = buffer.realized.size + 1 := Array.size_push ..
  apply follows_of_ready rfl
  · intro i here
    simp only [Buffer.produce, size] at here ⊢
    rw [Array.getElem?_push]
    split
    case isTrue last => rw [last, head]
    case isFalse notLast => exact follows.elements i (by omega)
  · exact callables (follows.callables state)
  · rw [sources_eq]
    exact follows.sources state
  · intro pulls
    have next := rest (pulls + 1)
    simp only [Generator.element, pulled] at next
    simp only [Buffer.produce, size]
    rw [Nat.add_assoc, Nat.add_comm 1 pulls]
    exact next

/-- A pull that has failed, or has come to what it comes to without failing, keeps the buffer at its
stream. -/
theorem Buffer.Follows.afterPull {result : Except Failure (Option (Value × Generator))}
    (follows : buffer.Follows meaning known streams id) (state : buffer.state = .ready generator)
    (right : ∀ pulled, result = .ok pulled → pulled = generator.ideal meaning streams) :
    ((buffer.withState .running).afterPull generator result).Follows meaning known streams id := by
  cases result with
  | error e =>
    have callables := follows.callables state
    have kept := Generator.afterFailure_of_known callables
    exact follows_of_ready (congrArg BufferState.ready kept) follows.elements callables
      (follows.sources state) (follows.rest state)
  | ok pulled =>
    have pulled_eq := right pulled rfl
    cases pulled with
    | none => exact follows.done state pulled_eq.symm
    | some pair => exact follows.produce state pulled_eq.symm

end Pull

theorem Store.Follows.update {store : Store} {id : Nat} {f : Buffer → Buffer}
    (follows : store.Follows meaning known streams)
    (updated : known id → (f (store.buffer id)).Follows meaning known streams id) :
    (store.update id f).Follows meaning known streams := by
  intro other knows
  obtain ⟨inside, followed⟩ := follows other knows
  refine ⟨by rwa [size_update], ?_⟩
  by_cases same : other = id
  · subst same
    rw [buffer_update_self inside]
    exact updated knows
  · rwa [buffer_update_of_ne same]

theorem Store.Follows.begun {store : Store} (follows : store.Follows meaning known streams)
    (id : Nat) : (store.update id (·.withState .running)).Follows meaning known streams :=
  follows.update fun knows => (follows id knows).2.running

theorem Store.Follows.add {store : Store} (follows : store.Follows meaning known streams)
    (generator : Generator) : (store.add generator).2.Follows meaning known streams := by
  intro id knows
  obtain ⟨inside, followed⟩ := follows id knows
  refine ⟨Nat.lt_of_lt_of_le inside (Grows.add store generator).size_le, ?_⟩
  rwa [buffer_add_of_lt inside]

namespace Machine

theorem Ends.get_stream {handle : Handle} {index : Nat} {before after : Machine σ}
    {item : Option Value} (ended : Ends code (handle.get index) before (.ok item) after)
    (follows : after.store.Follows meaning known streams) (knows : known handle.buffer) :
    item = streams handle.buffer index := by
  obtain ⟨rfl, atEnd⟩ := ended.get_item
  have followed := (follows handle.buffer knows).2
  cases found : (after.store.buffer handle.buffer).realized[index]? with
  | none =>
    have behind := Array.getElem?_eq_none_iff.mp found
    exact (followed.whole (atEnd found) index behind).symm
  | some value =>
    obtain ⟨here, _⟩ := Array.getElem?_eq_some_iff.mp found
    rw [← found]
    exact followed.elements index here

def FollowsWithin (code : Code σ) (meaning : Meaning) (known : Nat → Prop)
    (streams : Nat → Nat → Option Value) (rounds : Nat) : Prop :=
  ∀ {α : Type} {action : Action σ α} {before after : Machine σ} {result : Except Failure α},
    run code rounds action before = .ofResult result after →
      before.store.Follows meaning known streams → after.store.Follows meaning known streams

variable {rounds : Nat}

theorem cells_eq_look (within : FollowsWithin code meaning known streams rounds)
    {sources : List Sequence} {index : Nat} {before after : Machine σ} {cells : List (Option Value)}
    (knows : ∀ handle, .lazy handle ∈ sources → known handle.buffer)
    (follows : before.store.Follows meaning known streams)
    (ended : run code rounds (sources.mapM fun source => source.get index) before =
      .ofResult (.ok cells) after) :
    cells = sources.map fun source => source.look streams index := by
  induction sources generalizing before after cells with
  | nil =>
    obtain ⟨answered, _⟩ := Outcome.eq_of_answer ended
    exact Except.ok.inj answered
  | cons source sources ih =>
    rw [List.mapM_cons] at ended
    rcases Action.run_bind_eq_ofResult.mp ended with ⟨cell, between, read, ended⟩ | ⟨_, _, failed⟩
    case inr => cases failed
    rcases Action.run_bind_eq_ofResult.mp ended with ⟨row, last, reads, ended⟩ | ⟨_, _, failed⟩
    case inr => cases failed
    obtain ⟨answered, _⟩ := Outcome.eq_of_answer ended
    have followed := within read follows
    have head : cell = source.look streams index := by
      cases source with
      | items values =>
        obtain ⟨answered, _⟩ := Outcome.eq_of_answer read
        exact Except.ok.inj answered
      | lazy handle => exact Ends.get_stream ⟨rounds, read⟩ followed (knows handle (by simp))
    have tail := ih (fun handle mem => knows handle (by simp [mem])) followed reads
    rw [Except.ok.inj answered, head, tail]
    rfl

theorem next_ideal (flaky : meaning.Flaky code)
    (within : FollowsWithin code meaning known streams rounds) {generator : Generator}
    {before after : Machine σ} {pulled : Option (Value × Generator)}
    (callables : generator.Known meaning) (sources : ∀ source ∈ generator.sources, known source)
    (follows : before.store.Follows meaning known streams)
    (ended : run code rounds generator.next before = .ofResult (.ok pulled) after) :
    pulled = generator.ideal meaning streams := by
  have ends : Ends code generator.next before (.ok pulled) after := ⟨rounds, ended⟩
  refine (Answers.next flaky callables ?_).right ends
  rintro rows index rfl
  -- The reads of a row have ended within the same rounds, so what is known of these applies to them.
  rcases Action.run_bind_eq_ofResult.mp ended with ⟨cells, between, read, _⟩ | ⟨_, _, failed⟩
  case inr => cases failed
  rw [← cells_eq_look within
    (fun handle mem => sources _ (Generator.mem_sources_zip.mpr ⟨handle, mem, rfl⟩)) follows read]
  exact Answers.of_ends ⟨rounds, read⟩

theorem follows_law (flaky : meaning.Flaky code) (known : Nat → Prop)
    (streams : Nat → Nat → Option Value) :
    RunLaw code fun before _ after =>
      before.store.Follows meaning known streams → after.store.Follows meaning known streams where
  rest _ follows := follows
  append one two follows := two (one follows)
  called _ _ law follows := law follows
  suspended _ generator follows := follows.add generator
  sessionSet _ _ follows := follows
  hostSet _ _ follows := follows
  pulled {_} within {id generator before result after} state pulled follows := by
    have begun := follows.begun id
    refine Store.Follows.update (within pulled begun) fun knows => ?_
    have followed := (follows _ knows).2
    obtain ⟨_, rests⟩ := Ends.rests state ⟨_, pulled⟩
    rw [rests]
    apply followed.afterPull state
    rintro answered rfl
    exact next_ideal flaky within (followed.callables state)
      (fun source mem => (followed.sources state source mem).2) begun pulled

theorem Reaches.follows (flaky : meaning.Flaky code) {before after : Machine σ}
    (reaches : Reaches code before after) (follows : before.store.Follows meaning known streams) :
    after.store.Follows meaning known streams := by
  induction reaches with
  | refl => exact follows
  | tail _ step ih =>
    cases step with
    | ended ended =>
      obtain ⟨log, logged⟩ := ended.logs
      exact (follows_law flaky known streams).of_logs logged ih
    | begun state => exact ih.begun _

end Machine

end Invariant

end Terse
