import Terse.Proofs.Lazy.Growth
import Terse.Proofs.Value.LazyFree

/-! The stream of a lazy sequence: the elements at hand, and those that its generator comes to as long
as no call fails. Streams are plain functions of the store; no action is run for them. -/
namespace Terse

/-- What callables return, by their arguments, as far as this is known. -/
structure Meaning where
  covers : Callable → (arguments : Nat) → Prop
  value : Callable → List Value → Value
  lazyFree : ∀ {f args}, covers f args.length → (∀ arg ∈ args, arg.LazyFree) →
    (value f args).LazyFree

def Sequence.look (streams : Nat → Nat → Option Value) : Sequence → Nat → Option Value
  | .items values, index => values[index]?
  | .lazy handle, index => streams handle.buffer index

namespace Generator

def sources : Generator → List Nat
  | zip sources _ => sources.filterMap fun
    | .items _ => none
    | .lazy handle => some handle.buffer
  | _ => []

/-- All callables are known, and what they are called with is free of lazy sequences. -/
def Known (meaning : Meaning) : Generator → Prop
  | range _ _ => True
  | fixedPoint step initial previous =>
    meaning.covers step 1 ∧ (∀ v ∈ initial, v.LazyFree) ∧ ∀ v ∈ previous, v.LazyFree
  | scan combiner items accumulator _ =>
    meaning.covers combiner 2 ∧ (∀ v ∈ items, v.LazyFree) ∧ ∀ v ∈ accumulator, v.LazyFree
  | collect step predicate current _ =>
    meaning.covers step 1 ∧ meaning.covers predicate 1 ∧ current.LazyFree
  | zip _ _ => True
  | native _ _ => False

/-- A pull in which no call fails, given the elements of the sources. -/
def ideal (meaning : Meaning) (streams : Nat → Nat → Option Value) :
    Generator → Option (Value × Generator)
  | range current stop =>
    if current < stop then some (.ofInt current, range (current + 1) stop) else none
  | fixedPoint step (some first) _ => some (first, fixedPoint step none (some first))
  | fixedPoint _ none none => none
  | fixedPoint step none (some last) =>
    let next := meaning.value step [last]
    if next.same last then none else some (next, fixedPoint step none (some next))
  | scan combiner items accumulator index =>
    match accumulator <|> items.head?, items[index]? with
    | some left, some right =>
      let folded := meaning.value combiner [left, right]
      some (folded, scan combiner items (some folded) (index + 1))
    | _, _ => none
  | collect step predicate current started =>
    let candidate := if started then meaning.value step [current] else current
    if (meaning.value predicate [candidate]).plainTruth then
      some (candidate, collect step predicate candidate true)
    else none
  | zip sources index =>
    let cells := sources.map fun source => source.look streams index
    if cells.all Option.isNone then none
    else some (.list (cells.map (·.getD (.ofInt 0))), zip sources (index + 1))
  | native _ _ => none

def element (meaning : Meaning) (streams : Nat → Nat → Option Value) :
    Nat → Generator → Option Value
  | 0, generator => (generator.ideal meaning streams).map Prod.fst
  | pulls + 1, generator => do
    let (_, rest) ← generator.ideal meaning streams
    element meaning streams pulls rest

section Ideal

variable {meaning : Meaning} {streams others : Nat → Nat → Option Value}
  {generator rest : Generator} {value : Value}

theorem mem_sources_zip {rows : List Sequence} {index id : Nat} :
    id ∈ (zip rows index).sources ↔ ∃ handle, .lazy handle ∈ rows ∧ handle.buffer = id := by
  simp only [sources, List.mem_filterMap]
  constructor
  · rintro ⟨_ | handle, mem, read⟩
    · cases read
    · exact ⟨handle, mem, Option.some.inj read⟩
  · rintro ⟨handle, mem, rfl⟩
    exact ⟨_, mem, rfl⟩

theorem afterFailure_of_known (known : generator.Known meaning) :
    generator.afterFailure = generator := by
  cases generator with
  | native producer pulls => cases known
  | _ => rfl

theorem free_of_scan {combiner : Callable} {items : List Value} {accumulator : Option Value}
    {index : Nat} {left right : Value}
    (known : (scan combiner items accumulator index).Known meaning)
    (start : (accumulator <|> items.head?) = some left) (here : items[index]? = some right) :
    ∀ arg ∈ [left, right], arg.LazyFree := by
  obtain ⟨_, free, freeStart⟩ := known
  have freeLeft : left.LazyFree := by
    cases accumulator with
    | none => exact free left (List.mem_of_head? start)
    | some folded => exact freeStart left start
  simp [freeLeft, free right (List.mem_of_getElem? here)]

theorem ideal_rest (pulled : generator.ideal meaning streams = some (value, rest)) :
    rest.sources = generator.sources ∧ (generator.Known meaning → rest.Known meaning) := by
  cases generator with
  | range current stop =>
    simp only [ideal, Option.ite_none_right_eq_some, Option.some.injEq, Prod.mk.injEq] at pulled
    obtain ⟨_, _, rfl⟩ := pulled
    exact ⟨rfl, fun known => known⟩
  | fixedPoint step initial previous =>
    cases initial with
    | some first =>
      cases pulled
      exact ⟨rfl, fun ⟨covered, free, _⟩ => ⟨covered, nofun, free⟩⟩
    | none =>
      cases previous with
      | none => cases pulled
      | some last =>
        simp only [ideal, Option.ite_none_left_eq_some, Option.some.injEq, Prod.mk.injEq] at pulled
        obtain ⟨_, _, rfl⟩ := pulled
        refine ⟨rfl, fun ⟨covered, _, free⟩ => ⟨covered, nofun, ?_⟩⟩
        rintro _ ⟨⟩
        exact meaning.lazyFree covered (by simpa using free last rfl)
  | scan combiner items accumulator index =>
    simp only [ideal] at pulled
    split at pulled
    case h_1 left right start here =>
      cases pulled
      refine ⟨rfl, fun known => ⟨known.1, known.2.1, ?_⟩⟩
      rintro _ ⟨⟩
      exact meaning.lazyFree known.1 (free_of_scan known start here)
    case h_2 => cases pulled
  | collect step predicate current started =>
    simp only [ideal, Option.ite_none_right_eq_some, Option.some.injEq, Prod.mk.injEq] at pulled
    obtain ⟨_, _, rfl⟩ := pulled
    refine ⟨rfl, fun ⟨covered, tested, free⟩ => ⟨covered, tested, ?_⟩⟩
    split
    · exact meaning.lazyFree covered (by simpa using free)
    · exact free
  | zip rows index =>
    simp only [ideal, Option.ite_none_left_eq_some, Option.some.injEq, Prod.mk.injEq] at pulled
    obtain ⟨_, _, rfl⟩ := pulled
    exact ⟨rfl, fun known => known⟩
  | native producer pulls => cases pulled

theorem ideal_congr (same : ∀ id ∈ generator.sources, streams id = others id) :
    generator.ideal meaning streams = generator.ideal meaning others := by
  cases generator with
  | zip rows index =>
    have cells : rows.map (fun source => source.look streams index) =
        rows.map (fun source => source.look others index) := by
      apply List.map_congr_left
      rintro (values | handle) mem
      · rfl
      · exact congrFun (same handle.buffer (mem_sources_zip.mpr ⟨handle, mem, rfl⟩)) index
    simp only [ideal, cells]
  | fixedPoint step initial previous => cases initial <;> cases previous <;> rfl
  | _ => rfl

theorem element_congr (same : ∀ id ∈ generator.sources, streams id = others id) (pulls : Nat) :
    generator.element meaning streams pulls = generator.element meaning others pulls := by
  induction pulls generalizing generator with
  | zero => simp only [element, ideal_congr same]
  | succ pulls ih =>
    simp only [element, ideal_congr same]
    cases pulled : generator.ideal meaning others with
    | none => rfl
    | some pair =>
      apply ih
      rw [(ideal_rest pulled).1]
      exact same

theorem element_of_over (finished : generator.ideal meaning streams = none) (pulls : Nat) :
    generator.element meaning streams pulls = none := by
  cases pulls <;> simp [element, finished]

end Ideal

end Generator

namespace Store

/-- The elements of a buffer when no call fails. Sources have been there before the sequences that
are made of them, so their numbers are smaller. -/
def stream (meaning : Meaning) (store : Store) (id : Nat) : Nat → Option Value := fun index =>
  let buffer := store.buffer id
  if index < buffer.realized.size then buffer.realized[index]?
  else
    match buffer.state with
    | .ready generator =>
      generator.element meaning
        (fun source => if source < id then stream meaning store source else fun _ => none)
        (index - buffer.realized.size)
    | .running | .done => none
termination_by id

variable {meaning : Meaning} {store : Store} {id index : Nat}

theorem stream_of_lt (here : index < (store.buffer id).realized.size) :
    store.stream meaning id index = (store.buffer id).realized[index]? := by
  rw [stream]
  simp only [here, if_true]

theorem stream_of_done (state : (store.buffer id).state = .done)
    (behind : (store.buffer id).realized.size ≤ index) : store.stream meaning id index = none := by
  rw [stream]
  simp only [Nat.not_lt.mpr behind, state, if_false]

theorem stream_of_ready {generator : Generator} (state : (store.buffer id).state = .ready generator)
    (older : ∀ source ∈ generator.sources, source < id) (pulls : Nat) :
    store.stream meaning id ((store.buffer id).realized.size + pulls) =
      generator.element meaning (store.stream meaning) pulls := by
  rw [stream]
  have behind : ¬ (store.buffer id).realized.size + pulls < (store.buffer id).realized.size :=
    Nat.not_lt.mpr (Nat.le_add_right _ _)
  simp only [behind, state, if_false, Nat.add_sub_cancel_left]
  apply Generator.element_congr
  intro source mem
  simp only [older source mem, if_true]

/-- A buffer whose generator is known, and so those of its sources, which are older. -/
inductive Built (meaning : Meaning) (store : Store) : Nat → Prop where
  | done {id : Nat} : id < store.buffers.size → (store.buffer id).state = .done →
      Built meaning store id
  | ready {id : Nat} {generator : Generator} : (store.buffer id).state = .ready generator →
      generator.Known meaning → (∀ source ∈ generator.sources, source < id) →
      (∀ source ∈ generator.sources, Built meaning store source) → Built meaning store id

theorem Built.inside (built : store.Built meaning id) : id < store.buffers.size := by
  cases built with
  | done inside _ => exact inside
  | ready state _ _ _ => exact lt_size_of_state_ne_done (by simp [state])

theorem Built.not_running (built : store.Built meaning id) :
    (store.buffer id).state ≠ .running := by
  cases built with
  | done _ state => simp [state]
  | ready state _ _ _ => simp [state]

theorem Built.of_ready {generator : Generator} (built : store.Built meaning id)
    (state : (store.buffer id).state = .ready generator) :
    generator.Known meaning ∧ ∀ source ∈ generator.sources,
      source < id ∧ store.Built meaning source := by
  cases built with
  | done _ finished => simp [state] at finished
  | ready ready known older sources =>
    cases state.symm.trans ready
    exact ⟨known, fun source mem => ⟨older source mem, sources source mem⟩⟩

theorem Built.add (built : store.Built meaning id) (generator : Generator) :
    (store.add generator).2.Built meaning id := by
  induction built with
  | done inside state =>
    have same := buffer_add_of_lt inside generator
    exact .done (Nat.lt_of_lt_of_le inside (Grows.add store generator).size_le) (by rwa [same])
  | @ready id _ state known older _ ih =>
    have inside : id < store.buffers.size := lt_size_of_state_ne_done (by simp [state])
    have same := buffer_add_of_lt inside generator
    exact .ready (by rwa [same]) known older ih

end Store

end Terse
