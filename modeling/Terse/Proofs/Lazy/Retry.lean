import Terse.Proofs.Lazy.Follows

namespace Terse

variable {σ : Type} {meaning : Meaning} {code : Code σ}

namespace Machine

section Progress

variable {known : Nat → Prop} {streams : Nat → Nat → Option Value}

/-- All known buffers follow their streams, and those below the bound can be pulled. -/
structure Calm (meaning : Meaning) (known : Nat → Prop) (streams : Nat → Nat → Option Value)
    (bound : Nat) (machine : Machine σ) : Prop where
  follows : machine.store.Follows meaning known streams
  idle : ∀ id < bound, known id → (machine.store.buffer id).state ≠ .running

theorem Calm.ends {bound : Nat} {before after : Machine σ}
    (calm : before.Calm meaning known streams bound) (flaky : meaning.Flaky code) {α : Type}
    {action : Action σ α} {result : Except Failure α}
    (ended : Ends code action before result after) : after.Calm meaning known streams bound := by
  obtain ⟨log, grows⟩ := ended.grows
  refine ⟨Reaches.follows flaky (.single (.ended ended)) calm.follows, fun id below knows => ?_⟩
  exact fun running => calm.idle id below knows (grows.runningBefore id running)

theorem Calm.pulled {id : Nat} {generator : Generator} {before after : Machine σ}
    {result : Except Failure (Option (Value × Generator))}
    (calm : before.Calm meaning known streams (id + 1)) (flaky : meaning.Flaky code)
    (state : (before.store.buffer id).state = .ready generator)
    (ended : Ends code generator.next (before.updateBuffer id (·.withState .running)) result
      after) :
    (after.updateBuffer id (·.afterPull generator result)).Calm meaning known streams (id + 1) := by
  obtain ⟨_, follows⟩ := (follows_law flaky known streams).of_pull state ended
  obtain ⟨_, grows⟩ := (grows_law code).of_pull state ended
  refine ⟨follows calm.follows, fun other below knows running => ?_⟩
  exact calm.idle other below knows (grows.runningBefore other running)

theorem row_ends (flaky : meaning.Flaky code) {bound index : Nat} {rows : List Sequence}
    {before : Machine σ} (calm : before.Calm meaning known streams bound)
    (reads : ∀ handle, .lazy handle ∈ rows → ∀ machine : Machine σ,
      machine.Calm meaning known streams bound →
        ∃ item after, Ends code (handle.get index) machine (.ok item) after) :
    ∃ cells after, Ends code (rows.mapM fun source => source.get index) before (.ok cells) after := by
  induction rows generalizing before with
  | nil => exact ⟨[], before, ends_pure.mpr ⟨rfl, rfl⟩⟩
  | cons source rows ih =>
    have first : ∃ item between, Ends code (source.get index) before (.ok item) between := by
      cases source with
      | items values => exact ⟨_, before, ends_pure.mpr ⟨rfl, rfl⟩⟩
      | lazy handle => exact reads handle (by simp) before calm
    obtain ⟨item, between, first⟩ := first
    obtain ⟨cells, after, rest⟩ := ih (calm.ends flaky first)
      (fun handle mem => reads handle (by simp [mem]))
    refine ⟨item :: cells, after, ?_⟩
    rw [List.mapM_cons]
    apply ends_bind_ok.mpr ⟨item, between, first, ?_⟩
    exact ends_bind_ok.mpr ⟨cells, after, rest, ends_pure.mpr ⟨rfl, rfl⟩⟩

theorem next_ends (reliable : meaning.Reliable code) {bound : Nat} {generator : Generator}
    {before : Machine σ} (calm : before.Calm meaning known streams bound)
    (callables : generator.Known meaning) (sources : ∀ source ∈ generator.sources, known source)
    (reads : ∀ handle : Handle, handle.buffer ∈ generator.sources → ∀ index,
      ∀ machine : Machine σ, machine.Calm meaning known streams bound →
        ∃ item after, Ends code (handle.get index) machine (.ok item) after) :
    ∃ after, Ends code generator.next before (.ok (generator.ideal meaning streams)) after := by
  have flaky : meaning.Flaky code := reliable.flaky
  refine (Answers.next flaky callables ?_).sure reliable
  rintro rows index rfl
  have source {handle : Handle} (mem : .lazy handle ∈ rows) :
      handle.buffer ∈ (Generator.zip rows index).sources :=
    Generator.mem_sources_zip.mpr ⟨handle, mem, rfl⟩
  obtain ⟨cells, after, ⟨rounds, ended⟩⟩ := row_ends flaky calm
    (fun handle mem machine calm => reads handle (source mem) index machine calm)
  have within : FollowsWithin code meaning known streams rounds := fun ended follows =>
    Reaches.follows flaky (.single (.ended ⟨rounds, ended⟩)) follows
  rw [← cells_eq_look within (fun handle mem => sources _ (source mem)) calm.follows ended]
  exact Answers.of_ends ⟨rounds, ended⟩

/-- As long as no call fails, realizing up to some length comes to an end. The induction is on the
buffer, since the sources of a row are older, and within it on the elements that are missing. -/
theorem realize_ends (reliable : meaning.Reliable code) {id : Nat} (knows : known id) (length : Nat)
    {before : Machine σ} (calm : before.Calm meaning known streams (id + 1)) :
    ∃ reached after, Ends code (Action.realize id (.upTo length)) before (.ok reached) after := by
  have flaky : meaning.Flaky code := reliable.flaky
  induction id using Nat.strongRecOn generalizing length before with
  | ind id older =>
    have reads {handle : Handle} (index : Nat) {machine : Machine σ} (knows : known handle.buffer)
        (below : handle.buffer < id) (calm : machine.Calm meaning known streams id) :
        ∃ item after, Ends code (handle.get index) machine (.ok item) after := by
      have calm : machine.Calm meaning known streams (handle.buffer + 1) :=
        ⟨calm.follows, fun other le => calm.idle other (by omega)⟩
      obtain ⟨reached, after, ended⟩ := older handle.buffer below knows (index + 1) calm
      obtain ⟨item, ended⟩ := ended.get
      exact ⟨item, after, ended⟩
    have realizes : ∃ reached after, Ends code (Action.realize id (.upTo length)) before
        (.ok reached) after ∧ after.Calm meaning known streams (id + 1) := by
      refine realize_ends_within length (fun calm => calm.idle id (Nat.lt_succ_self id) knows) ?_ calm
      intro machine generator calm unmet state
      have followed := (calm.follows id knows).2
      have sources := followed.sources state
      -- While the generator runs, this buffer cannot be pulled, but the older ones can.
      have begun : (machine.updateBuffer id (·.withState .running)).Calm meaning known streams id := by
        refine ⟨calm.follows.begun id, fun other below knows => ?_⟩
        simp only [updateBuffer, Store.buffer_update_of_ne (Nat.ne_of_lt below)]
        exact calm.idle other (Nat.lt_succ_of_lt below) knows
      obtain ⟨between, pulled⟩ := next_ends reliable begun (followed.callables state)
        (fun source mem => (sources source mem).2)
        (fun handle mem index machine calm =>
          reads index (sources _ mem).2 (sources _ mem).1 calm)
      exact ⟨_, between, pulled, fun _ => by simpa [Demand.isMet] using unmet,
        calm.pulled flaky state pulled⟩
    obtain ⟨reached, after, ended, _⟩ := realizes
    exact ⟨reached, after, ended⟩

end Progress

end Machine

namespace Store

variable {known : Nat → Prop} {streams : Nat → Nat → Option Value} {store : Store} {id : Nat}

theorem Built.follows_stream (store : Store) :
    store.Follows meaning (store.Built meaning) (store.stream meaning) := by
  intro id built
  refine ⟨built.inside, fun i here => (stream_of_lt here).symm,
    fun state i behind => stream_of_done state behind, fun state => (built.of_ready state).1,
    fun state => (built.of_ready state).2, fun state pulls => ?_⟩
  exact (stream_of_ready state (fun source mem => ((built.of_ready state).2 source mem).1) pulls).symm

theorem Follows.built (follows : store.Follows meaning known streams)
    (idle : ∀ id, (store.buffer id).state ≠ .running) (knows : known id) :
    store.Built meaning id := by
  induction id using Nat.strongRecOn with
  | ind id older =>
    obtain ⟨inside, followed⟩ := follows id knows
    cases state : (store.buffer id).state with
    | running => exact absurd state (idle id)
    | done => exact .done inside state
    | ready generator =>
      have sources := followed.sources state
      exact .ready state (followed.callables state) (fun source mem => (sources source mem).1)
        fun source mem => older source (sources source mem).1 (sources source mem).2

theorem Follows.stream_eq (follows : store.Follows meaning known streams)
    (built : store.Built meaning id) (knows : known id) : store.stream meaning id = streams id := by
  induction built with
  | @done id inside state =>
    have followed := (follows id knows).2
    funext i
    by_cases here : i < (store.buffer id).realized.size
    · rw [stream_of_lt here, followed.elements i here]
    · have behind := Nat.le_of_not_lt here
      rw [stream_of_done state behind, followed.whole state i behind]
  | @ready id generator state callables older built ih =>
    have followed := (follows id knows).2
    funext i
    by_cases here : i < (store.buffer id).realized.size
    · rw [stream_of_lt here, followed.elements i here]
    · obtain ⟨pulls, rfl⟩ := Nat.exists_eq_add_of_le (Nat.le_of_not_lt here)
      rw [stream_of_ready state older, ← followed.rest state]
      apply Generator.element_congr
      exact fun source mem => ih source mem (followed.sources state source mem).2

end Store

namespace Machine

/-- Read without failures, a buffer gives this stream. -/
def Yields (meaning : Meaning) (stream : Nat → Option Value) (id : Nat) (machine : Machine σ) : Prop :=
  ∀ sure : Code σ, meaning.Reliable sure → ∀ reader : Handle, reader.buffer = id → ∀ i, ∃ after,
    Ends sure (reader.get i) machine (.ok (stream i)) after

/-- What there is of a buffer, and what is read from it, belongs to this stream. -/
structure Shows (code : Code σ) (stream : Nat → Option Value) (id : Nat) (machine : Machine σ) :
    Prop where
  elements : ∀ i < (machine.store.buffer id).realized.size,
    (machine.store.buffer id).realized[i]? = stream i
  whole : (machine.store.buffer id).state = .done → ∀ i,
    (machine.store.buffer id).realized[i]? = stream i
  get : ∀ {reader : Handle} {i item after}, reader.buffer = id →
    Ends code (reader.get i) machine (.ok item) after → item = stream i
  next : ∀ {reader moved : Handle} {item after}, reader.buffer = id →
    Ends code reader.next machine (.ok (item, moved)) after → item = stream reader.cursor
  isEmpty : ∀ {reader : Handle} {empty after}, reader.buffer = id →
    Ends code (Sequence.lazy reader).isEmpty machine (.ok empty) after → empty = (stream 0).isNone
  length : ∀ {reader : Handle} {length after}, reader.buffer = id →
    Ends code reader.length machine (.ok length) after → ∀ i, (stream i).isSome ↔ i < length
  force : ∀ {reader : Handle} {items after}, reader.buffer = id →
    Ends code reader.force machine (.ok items) after → ∀ i, items[i]? = stream i
  /-- What the generator gives while an action runs is kept, also if the action fails. -/
  kept : ∀ {α : Type} {action : Action σ α} {result log after},
    Logs code action machine result log after →
      (after.store.buffer id).realized.toList =
        (machine.store.buffer id).realized.toList ++ producedFor id log

theorem yields_of_built {machine : Machine σ} {id : Nat}
    (built : machine.store.Built meaning id) :
    machine.Yields meaning (machine.store.stream meaning id) id := by
  rintro sure reliable reader rfl i
  have calm : machine.Calm meaning (machine.store.Built meaning) (machine.store.stream meaning)
      (reader.buffer + 1) :=
    ⟨Store.Built.follows_stream machine.store, fun id _ built => built.not_running⟩
  have flaky : meaning.Flaky sure := reliable.flaky
  obtain ⟨reached, after, ended⟩ := realize_ends reliable built (i + 1) calm
  obtain ⟨item, ended⟩ := ended.get
  have right := ended.get_stream (calm.ends flaky ended).follows built
  exact ⟨after, right ▸ ended⟩

theorem shows_of_follows {known : Nat → Prop} {streams : Nat → Nat → Option Value}
    {machine : Machine σ} {id : Nat} (flaky : meaning.Flaky code)
    (follows : machine.store.Follows meaning known streams) (knows : known id) :
    machine.Shows code (streams id) id := by
  have later {α : Type} {action : Action σ α} {result : Except Failure α} {after : Machine σ}
      (ended : Ends code action machine result after) :
      after.store.Follows meaning known streams :=
    Reaches.follows flaky (.single (.ended ended)) follows
  have whole {store : Store} (follows : store.Follows meaning known streams)
      (state : (store.buffer id).state = .done) (i : Nat) :
      (store.buffer id).realized[i]? = streams id i := by
    have followed := (follows id knows).2
    by_cases here : i < (store.buffer id).realized.size
    · exact followed.elements i here
    · have behind := Nat.le_of_not_lt here
      rw [followed.whole state i behind, Array.getElem?_eq_none behind]
  constructor
  · exact (follows id knows).2.elements
  · exact whole follows
  · rintro reader i item after rfl ended
    exact ended.get_stream (later ended) knows
  · rintro reader moved item after rfl ended
    obtain ⟨found, between, read, ended⟩ := ends_bind_ok.mp ended
    have found_eq := read.get_stream (later read) knows
    obtain ⟨answered, _⟩ := ends_pure_ite.mp ended
    rw [← found_eq]
    split at answered <;> cases answered <;> rfl
  · rintro reader empty after rfl ended
    obtain ⟨found, between, read, ended⟩ := ends_bind_ok.mp ended
    have found_eq := Ends.get_stream read (later read) knows
    obtain ⟨answered, _⟩ := ends_pure.mp ended
    rw [← found_eq]
    exact Except.ok.inj answered
  · rintro reader length after rfl ended i
    obtain ⟨rfl, state⟩ := ended.length_size
    rw [← whole (later ended) state i]
    simp
  · rintro reader items after rfl ended i
    obtain ⟨rfl, state⟩ := ended.force_items
    rw [← whole (later ended) state i]
    exact Array.getElem?_toList
  · intro α action result log after logged
    exact ((grows_law code).of_logs logged).realized id (follows id knows).1

end Machine

inductive Construction where
  | fixedPoint (step : Callable) (initial : Value)
  | scan (combiner : Callable) (items : List Value)
  | collect (step predicate : Callable) (initial : Value)
  | zip (sources : List Sequence)

namespace Construction

def build : Construction → Action σ Handle
  | fixedPoint step initial => Handle.fixedPoint step initial
  | scan combiner items => Handle.scan combiner items
  | collect step predicate initial => Handle.collect step predicate initial
  | zip sources => Handle.zip sources

/-- All callables are covered, and start from what is free of lazy sequences. Lazy sources have been
built in the same way. -/
def Admissible (meaning : Meaning) (store : Store) : Construction → Prop
  | fixedPoint step initial => meaning.covers step 1 ∧ initial.LazyFree
  | scan combiner items => meaning.covers combiner 2 ∧ ∀ item ∈ items, item.LazyFree
  | collect step predicate initial =>
    meaning.covers step 1 ∧ meaning.covers predicate 1 ∧ initial.LazyFree
  | zip sources => ∀ handle, .lazy handle ∈ sources → store.Built meaning handle.buffer

def generator : Construction → Generator
  | fixedPoint step initial => .fixedPoint step (some initial) none
  | scan combiner items => .scan combiner items none 1
  | collect step predicate initial => .collect step predicate initial false
  | zip sources => .zip sources 0

theorem build_eq (construction : Construction) :
    (construction.build : Action σ Handle) = Action.suspend construction.generator := by
  cases construction <;> rfl

theorem known_generator {construction : Construction} {store : Store}
    (admissible : construction.Admissible meaning store) :
    construction.generator.Known meaning ∧
      ∀ source ∈ construction.generator.sources, store.Built meaning source := by
  cases construction with
  | fixedPoint step initial =>
    obtain ⟨covered, free⟩ := admissible
    exact ⟨⟨covered, by simpa using free, nofun⟩, nofun⟩
  | scan combiner items =>
    obtain ⟨covered, free⟩ := admissible
    exact ⟨⟨covered, free, nofun⟩, nofun⟩
  | collect step predicate initial => exact ⟨admissible, nofun⟩
  | zip sources =>
    refine ⟨trivial, fun source mem => ?_⟩
    obtain ⟨handle, there, rfl⟩ := Generator.mem_sources_zip.mp mem
    exact admissible handle there

theorem built_of_build {construction : Construction} {before made : Machine σ} {handle : Handle}
    (admissible : construction.Admissible meaning before.store)
    (ended : Machine.Ends code construction.build before (.ok handle) made) :
    made.store.Built meaning handle.buffer := by
  rw [build_eq] at ended
  obtain ⟨answered, rfl⟩ := Machine.ends_suspend.mp ended
  cases answered
  obtain ⟨known, sources⟩ := known_generator admissible
  have state : ((before.store.add construction.generator).2.buffer
      (before.store.add construction.generator).1.buffer).state = .ready construction.generator := by
    rw [Store.buffer_add_self]
    rfl
  exact .ready state known (fun source mem => (sources source mem).inside)
    fun source mem => (sources source mem).add _

end Construction

namespace Machine

/-- Failures do not show in the stream. A sequence that has been made over callables of which each call
fails or returns what it means gives a certain stream if it is read without failures. Whatever is
done after it has been made, with calls failing anywhere on the way: what is realized of it is a
prefix of this stream, and all of it once there is nothing more; each answer is right by this
stream; and what is realized by an action that fails in the end is kept. As soon as no pull is under
way, reading on without failures gives this very stream, and the sequence may be a source of
further ones. -/
theorem failures_leave_stream (flaky : meaning.Flaky code) {construction : Construction}
    {before made : Machine σ} {handle : Handle}
    (admissible : construction.Admissible meaning before.store)
    (built : Ends code construction.build before (.ok handle) made) :
    made.Yields meaning (made.store.stream meaning handle.buffer) handle.buffer ∧
    ∀ {after}, Reaches code made after →
      after.Shows code (made.store.stream meaning handle.buffer) handle.buffer ∧
      ((∀ id, (after.store.buffer id).state ≠ .running) →
        after.Yields meaning (made.store.stream meaning handle.buffer) handle.buffer ∧
        after.store.Built meaning handle.buffer ∧
        after.store.stream meaning handle.buffer = made.store.stream meaning handle.buffer) := by
  have built := Construction.built_of_build admissible built
  refine ⟨yields_of_built built, fun {after} reaches => ?_⟩
  have follows := reaches.follows flaky (Store.Built.follows_stream made.store)
  refine ⟨shows_of_follows flaky follows built, fun idle => ?_⟩
  have still := follows.built idle built
  have same := follows.stream_eq still built
  refine ⟨?_, still, same⟩
  rw [← same]
  exact yields_of_built still

end Machine

def countUp (v : Value) : Value :=
  match v.integer? with
  | some n => if n < 2 then .ofInt (n + 1) else v
  | none => v

theorem lazyFree_countUp {v : Value} (free : v.LazyFree) : (countUp v).LazyFree := by
  unfold countUp
  split
  · split
    · exact .number _
    · exact free
  · exact free

def counter : Callable := ⟨0, .closure⟩

def counterMeaning : Meaning where
  covers f arguments := f = counter ∧ arguments = 1
  value _ args := countUp (args.headD .empty)
  lazyFree {_ args} covered free := by
    obtain ⟨v, rfl⟩ := List.length_eq_one_iff.mp covered.2
    exact lazyFree_countUp (free v (by simp))

/-- The calls are counted; those of some numbers fail, the others count up. -/
def counterCode (fails : Nat → Bool) : Code Nat where
  body _ args := do
    let calls ← Action.host
    Action.setHost (calls + 1)
    if fails calls then .fail .divisionByZero else return [countUp (args.headD .empty)]
  produce _ _ := return none

theorem flaky_counterCode (fails : Nat → Bool) : counterMeaning.Flaky (counterCode fails) := by
  rintro f args ⟨rfl, one⟩ free before after v ended
  obtain ⟨stack, called, rfl⟩ := Machine.ends_map_ok.mp ended
  have ran := Machine.ends_invoke.mp called
  obtain ⟨calls, _, _, ran⟩ := Machine.ends_bind_ok.mp ran
  obtain ⟨_, _, _, ran⟩ := Machine.ends_bind_ok.mp ran
  split at ran
  · cases (Machine.ends_fail.mp ran).1
  · obtain ⟨answered, _⟩ := Machine.ends_pure.mp ran
    cases answered
    rfl

theorem reliable_counterCode : counterMeaning.Reliable (counterCode fun _ => false) := by
  rintro f args ⟨rfl, one⟩ free before
  exact ⟨{ before with host := before.host + 1 }, 3, rfl⟩

def counted : Machine Nat :=
  ⟨(Store.empty.add (.fixedPoint counter (some (.ofInt 0)) none)).2, .initial [] {} .closed, 0⟩

def row (n : Int) (s : String) : Value := .list [.ofInt n, .text s]

def countedRows : Construction := .zip [.lazy ⟨0, 0⟩, .items [.text "a", .text "b", .text "c"]]

/-- Row 2 needs call 1, which fails; rows 0 and 1 are kept, and asking again gives row 2, as it is
given if no call fails. -/
theorem failures_leave_stream_zipped :
    ∃ made after, Machine.Ends (counterCode (· == 1)) countedRows.build counted (.ok ⟨1, 0⟩) made ∧
      Machine.Ends (counterCode (· == 1)) (Handle.get ⟨1, 0⟩ 2) made (.error .divisionByZero) after ∧
      (after.store.buffer 1).realized = #[row 0 "a", row 1 "b"] ∧
      made.store.stream counterMeaning 1 0 = some (row 0 "a") ∧
      made.store.stream counterMeaning 1 1 = some (row 1 "b") ∧
      ∃ later, Machine.Ends (counterCode fun _ => false) (Handle.get ⟨1, 0⟩ 2) made
        (.ok (some (row 2 "c"))) later := by
  have runs : ∃ made after later,
      Machine.Ends (counterCode (· == 1)) countedRows.build counted (.ok ⟨1, 0⟩) made ∧
      Machine.Ends (counterCode (· == 1)) (Handle.get ⟨1, 0⟩ 2) made (.error .divisionByZero) after ∧
      (after.store.buffer 1).realized = #[row 0 "a", row 1 "b"] ∧
      Machine.Ends (counterCode (· == 1)) (Handle.get ⟨1, 0⟩ 2) after (.ok (some (row 2 "c")))
        later :=
    ⟨_, _, _, ⟨9, rfl⟩, ⟨9, rfl⟩, rfl, 9, rfl⟩
  obtain ⟨made, after, later, built, failed, kept, retried⟩ := runs
  have admissible : countedRows.Admissible counterMeaning counted.store := by
    intro handle mem
    obtain rfl : handle = ⟨0, 0⟩ := by simpa using mem
    have free : ∀ v ∈ some (Value.ofInt 0), v.LazyFree := by
      rintro _ ⟨⟩
      exact .number 0
    exact .ready rfl ⟨⟨rfl, rfl⟩, free, nofun⟩ nofun nofun
  obtain ⟨yields, always⟩ :=
    Machine.failures_leave_stream (flaky_counterCode (· == 1)) admissible built
  obtain ⟨shows, _⟩ := always (.single (.ended failed))
  have size : (after.store.buffer 1).realized.size = 2 := by rw [kept]; rfl
  have first := shows.elements 0 (by rw [size]; decide)
  have second := shows.elements 1 (by rw [size]; decide)
  rw [kept] at first second
  have third := yields _ reliable_counterCode ⟨1, 0⟩ rfl 2
  rw [← shows.get rfl retried] at third
  exact ⟨made, after, built, failed, kept, first.symm, second.symm, third⟩

end Terse
