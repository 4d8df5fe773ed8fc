import Mathlib.Logic.Function.Iterate
import Terse.Proofs.Lazy.Calls
import Terse.Proofs.Lazy.Retry
import Terse.Proofs.Value.Equality

namespace Terse

variable {σ : Type} {code : Code σ}

open Machine

/-- On values without lazy sequences, a call returns the value of this function and does nothing
else. -/
structure Callable.Computes (code : Code σ) (f : Callable) (F : Value → Value) : Prop where
  lazyFree : ∀ {v : Value}, v.LazyFree → (F v).LazyFree
  returns : ∀ {v : Value}, v.LazyFree → ∀ machine,
    Logs code (f.apply [v]) machine (.ok (F v)) [.called f [v]] machine

def pureCode (meaning : Callable → List Value → Value) : Code Unit where
  body f args := return [meaning f args]
  produce _ _ := return none

theorem computes_pureCode {meaning : Callable → List Value → Value} {f : Callable}
    (convention : f.convention = .closure)
    (lazyFree : ∀ {v : Value}, v.LazyFree → (meaning f [v]).LazyFree) :
    f.Computes (pureCode meaning) fun v => meaning f [v] where
  lazyFree := lazyFree
  returns {v} _ machine := by
    rw [Callable.apply, convention]
    exact ⟨2, rfl, rfl⟩

def unused : Machine Unit := ⟨.empty, .initial [] {} .closed, ()⟩

def Truthy (code : Code σ) (machine : Machine σ) (v : Value) : Prop :=
  ∃ after, Ends code v.truth machine (.ok true) after

namespace Value.LazyFree

variable {machine : Machine σ} {v w : Value}

theorem agree_iff (free : v.LazyFree) (free' : w.LazyFree) : Agree code machine v w ↔ v = w := by
  have compared : Ends code (v.equals w) machine _ machine := free.equals free'
  rw [← free.same_iff]
  exact ⟨fun ⟨_, ended⟩ => Except.ok.inj (compared.unique ended).1, fun same => ⟨_, same ▸ compared⟩⟩

theorem truthy_iff (free : v.LazyFree) : Truthy code machine v ↔ v.plainTruth = true := by
  have told : Ends code v.truth machine _ machine := free.truth
  exact ⟨fun ⟨_, ended⟩ => Except.ok.inj (told.unique ended).1, fun holds => ⟨_, holds ▸ told⟩⟩

theorem iterate {F : Value → Value} (lazyFree : ∀ {v : Value}, v.LazyFree → (F v).LazyFree)
    (free : v.LazyFree) (i : Nat) : (F^[i] v).LazyFree := by
  induction i with
  | zero => exact free
  | succ i ih =>
    rw [Function.iterate_succ_apply']
    exact lazyFree ih

end Value.LazyFree

def asLongAs (accepts : Nat → Bool) (values : Nat → Value) (i : Nat) : Option Value :=
  if ∀ j ≤ i, accepts j = true then some (values i) else none

section AsLongAs

variable {accepts : Nat → Bool} {values : Nat → Value} {i n : Nat}

theorem asLongAs_none (none_here : asLongAs accepts values i = none) :
    asLongAs accepts values (i + 1) = none := by
  simp only [asLongAs, ite_eq_right_iff, reduceCtorEq, imp_false] at none_here ⊢
  exact fun all => none_here fun j le => all j (Nat.le_succ_of_le le)

theorem asLongAs_of_before (before : ∀ j < i, (asLongAs accepts values j).isSome) :
    asLongAs accepts values i = if accepts i then some (values i) else none := by
  have accepted : ∀ j < i, accepts j = true := by
    intro j lt
    have there := before j lt
    unfold asLongAs at there
    split at there
    case isTrue all => exact all j le_rfl
    case isFalse => cases there
  refine if_congr ⟨fun all => all i le_rfl, fun here j le => ?_⟩ rfl rfl
  rcases Nat.lt_or_eq_of_le le with lt | rfl
  · exact accepted j lt
  · exact here

theorem asLongAs_of_all (all : ∀ j, accepts j = true) (i : Nat) :
    asLongAs accepts values i = some (values i) :=
  if_pos fun j _ => all j

theorem asLongAs_of_first (accepted : ∀ j < n, accepts j = true) (refused : accepts n = false)
    (i : Nat) : asLongAs accepts values i = ((List.range n).map values)[i]? := by
  rw [List.getElem?_map]
  by_cases inside : i < n
  · rw [List.getElem?_range inside]
    exact if_pos fun j le => accepted j (Nat.lt_of_le_of_lt le inside)
  · rw [List.getElem?_eq_none (by simpa using inside)]
    refine if_neg fun all => ?_
    rw [all n (Nat.le_of_not_lt inside)] at refused
    cases refused

end AsLongAs

/-! Up to the first fixed point. -/

section FixedPoint

variable {step : Callable} {F : Value → Value} {initial : Value}

/-- The iterate is the first, or is not the one before it again. -/
def isNew (F : Value → Value) (initial : Value) : Nat → Bool
  | 0 => true
  | i + 1 => !(F^[i + 1] initial).same (F^[i] initial)

def Routine.fixedPoint (step : Callable) (F : Value → Value) (initial : Value) : Routine where
  item := asLongAs (isNew F initial) (F^[·] initial)
  calls
    | 0 => []
    | i + 1 => [(step, [F^[i] initial])]
  generator
    | 0 => .fixedPoint step (some initial) none
    | i + 1 => .fixedPoint step none (some (F^[i] initial))
  ends := asLongAs_none

theorem Callable.Computes.sound_fixedPoint (computes : step.Computes code F)
    (free : initial.LazyFree) : (Routine.fixedPoint step F initial).Sound code := by
  intro i before machine
  rw [show (Routine.fixedPoint step F initial).item i = _ from asLongAs_of_before before]
  cases i with
  | zero => exact ⟨[], .pure _ machine, rfl⟩
  | succ i =>
    have last : (F^[i] initial).LazyFree := .iterate computes.lazyFree free i
    have called := computes.returns last machine
    have compared : Logs code ((F (F^[i] initial)).equals (F^[i] initial)) machine _ [] machine :=
      (computes.lazyFree last).logs_equals last
    rw [← Function.iterate_succ_apply' F i initial] at called compared
    refine ⟨[.called step [F^[i] initial]], called.bind (compared.bind ?_), rfl⟩
    rw [isNew]
    cases (F^[i + 1] initial).same (F^[i] initial) <;> exact .pure _ machine

theorem Routine.callsTo_fixedPoint (pulls : Nat) :
    (Routine.fixedPoint step F initial).callsTo pulls =
      (List.range (pulls - 1)).map fun i => (step, [F^[i] initial]) := by
  induction pulls with
  | zero => rfl
  | succ pulls ih =>
    rw [callsTo_succ, ih]
    cases pulls with
    | zero => rfl
    | succ pulls => simp [Routine.fixedPoint, List.range_succ]

theorem isNew_succ_iff (computes : step.Computes code F) (free : initial.LazyFree)
    {machine : Machine σ} {i : Nat} : isNew F initial (i + 1) = true ↔
      ¬ Agree code machine (F^[i + 1] initial) (F^[i] initial) := by
  have iterates := free.iterate computes.lazyFree
  rw [(iterates (i + 1)).agree_iff (iterates i), ← (iterates (i + 1)).same_iff]
  simp [isNew]

/-- The sequence of a fixed point is the iterates up to the first that the step leaves as it is, and
all of them if there is none. By whichever handles and between whatever else its elements are read, the
step has been called once for each element but the first, on the one before it, and once more, on
the last one, when the end has been found. -/
theorem fixedPoint_iterates (computes : step.Computes code F) (free : initial.LazyFree)
    {before made : Machine σ} {handle : Handle}
    (built : Ends code (Handle.fixedPoint step initial) before (.ok handle) made) :
    (∀ last, Agree code made (F^[last + 1] initial) (F^[last] initial) →
      (∀ i < last, ¬ Agree code made (F^[i + 1] initial) (F^[i] initial)) →
        made.Consists code handle.buffer
          (fun k => ((List.range (last + 1)).map (F^[·] initial))[k]?) ∧
        F (F^[last] initial) = F^[last] initial ∧
        ∀ i < last, ∀ machine, Ends code ((F^[i + 1] initial).equals (F^[i] initial)) machine
          (.ok false) machine) ∧
    ((∀ i, ¬ Agree code made (F^[i + 1] initial) (F^[i] initial)) →
      made.Consists code handle.buffer fun k => some (F^[k] initial)) ∧
    ∀ {log later}, Usage code handle.buffer made log later →
      ((later.store.buffer handle.buffer).state ≠ .done →
        callsIn log = (List.range ((later.store.buffer handle.buffer).realized.size - 1)).map
          fun i => (step, [F^[i] initial])) ∧
      ((later.store.buffer handle.buffer).state = .done →
        callsIn log = (List.range (later.store.buffer handle.buffer).realized.size).map
          fun i => (step, [F^[i] initial])) := by
  have sound := computes.sound_fixedPoint free
  have consists := sound.consists (Routine.performs_suspended built).2
  have iterates := free.iterate computes.lazyFree
  refine ⟨fun last same new => ?_, fun new => ?_, fun {log later} usage => ?_⟩
  · have fixed := ((iterates (last + 1)).agree_iff (iterates last)).mp same
    have accepted : ∀ i < last + 1, isNew F initial i = true := by
      rintro (_ | i) lt
      · rfl
      · exact (isNew_succ_iff computes free).mpr (new i (Nat.lt_of_succ_lt_succ lt))
    have refused : isNew F initial (last + 1) = false :=
      Bool.eq_false_iff.mpr fun new => (isNew_succ_iff computes free).mp new same
    refine ⟨?_, by rwa [Function.iterate_succ_apply'] at fixed, fun i lt machine => ?_⟩
    · rwa [← funext (asLongAs_of_first accepted refused)]
    · have differ : (F^[i + 1] initial).same (F^[i] initial) = false := by
        simpa [isNew] using accepted (i + 1) (Nat.succ_lt_succ lt)
      exact differ ▸ (iterates (i + 1)).equals (iterates i)
  · have accepted : ∀ i, isNew F initial i = true := by
      rintro (_ | i)
      · rfl
      · exact (isNew_succ_iff computes free).mpr (new i)
    rwa [← funext (asLongAs_of_all accepted)]
  · have calls := sound.calls built usage
    rw [Routine.callsTo_fixedPoint] at calls
    refine ⟨fun state => ?_, fun state => ?_⟩
    · rwa [Buffer.pulls_of_ne_done state] at calls
    · rwa [Buffer.pulls_of_done state] at calls

end FixedPoint

def countingCode : Code Unit := pureCode fun _ args => countUp (args.headD .empty)

/-- Counting up from zero stops at two. An element read twice, the next one through a handle that has
moved on, and a count of all: the step has been called on each of the three elements, once. -/
theorem fixedPoint_iterates_countUp :
    ∃ made log later,
      Ends countingCode (Handle.fixedPoint counter (.ofInt 0)) unused
        (.ok ⟨0, 0⟩) made ∧
      made.Consists countingCode 0 (fun k => [Value.ofInt 0, .ofInt 1, .ofInt 2][k]?) ∧
      countUp (.ofInt 2) = .ofInt 2 ∧
      Usage countingCode 0 made log later ∧
      callsIn log = [(counter, [.ofInt 0]), (counter, [.ofInt 1]), (counter, [.ofInt 2])] := by
  have runs : ∃ made first second later one two three,
      Ends countingCode (Handle.fixedPoint counter (.ofInt 0)) unused
        (.ok ⟨0, 0⟩) made ∧
      Logs countingCode (Handle.get ⟨0, 0⟩ 1) made (.ok (some (.ofInt 1))) one first ∧
      Logs countingCode (Handle.next ⟨0, 1⟩) first (.ok (some (.ofInt 1), ⟨0, 2⟩)) two second ∧
      Logs countingCode (Handle.length ⟨0, 2⟩) second (.ok 3) three later ∧
      (later.store.buffer 0).state = .done ∧ (later.store.buffer 0).realized.size = 3 :=
    ⟨_, _, _, _, _, _, _, ⟨9, rfl⟩, ⟨9, rfl, rfl⟩, ⟨9, rfl, rfl⟩, ⟨9, rfl, rfl⟩, rfl, rfl⟩
  obtain ⟨made, first, second, later, _, _, _, built, got, moved, counted, state, size⟩ := runs
  have free : (Value.ofInt 0).LazyFree := .number 0
  have computes : counter.Computes countingCode countUp :=
    computes_pureCode rfl lazyFree_countUp
  obtain ⟨finite, _, calls⟩ := fixedPoint_iterates computes free built
  have iterates := free.iterate computes.lazyFree
  have agree : Agree countingCode made (countUp^[3] (.ofInt 0)) (countUp^[2] (.ofInt 0)) :=
    ((iterates 3).agree_iff (iterates 2)).mpr rfl
  obtain ⟨consists, fixed, _⟩ := finite 2 agree fun i lt => by
    refine (isNew_succ_iff computes free).mp ?_
    match i with
    | 0 | 1 => rfl
  have usage := ((Usage.start.read (Action.Reads.get ⟨0, 0⟩ 1) got).read
    (Action.Reads.next ⟨0, 1⟩) moved).read (Action.Reads.length ⟨0, 2⟩) counted
  have called := (calls usage).2 state
  rw [size] at called
  exact ⟨made, _, later, built, consists, fixed, usage, called⟩

/-! As long as a predicate holds. -/

section Collect

variable {step predicate : Callable} {F P : Value → Value} {initial : Value}

/-- Each pull has the predicate called on the next iterate, for which each but the first has the step
called on the last element. -/
def Routine.collect (step predicate : Callable) (F P : Value → Value) (initial : Value) :
    Routine where
  item := asLongAs (fun i => (P (F^[i] initial)).plainTruth) (F^[·] initial)
  calls
    | 0 => [(predicate, [initial])]
    | i + 1 => [(step, [F^[i] initial]), (predicate, [F^[i + 1] initial])]
  generator
    | 0 => .collect step predicate initial false
    | i + 1 => .collect step predicate (F^[i] initial) true
  ends := asLongAs_none

def asked (step predicate : Callable) (F : Value → Value) (initial : Value) :
    (iterates : Nat) → List (Callable × List Value)
  | 0 => []
  | steps + 1 => (predicate, [initial]) ::
    (List.range steps).flatMap fun i =>
      [(step, [F^[i] initial]), (predicate, [F^[i + 1] initial])]

theorem asked_succ (steps : Nat) :
    asked step predicate F initial (steps + 2) = asked step predicate F initial (steps + 1) ++
      [(step, [F^[steps] initial]), (predicate, [F^[steps + 1] initial])] := by
  simp [asked, List.range_succ]

theorem count_asked (different : step ≠ predicate) (iterates : Nat) :
    (asked step predicate F initial iterates).countP (·.1 = step) = iterates - 1 ∧
      (asked step predicate F initial iterates).countP (·.1 = predicate) = iterates := by
  cases iterates with
  | zero => exact ⟨rfl, rfl⟩
  | succ steps =>
    induction steps with
    | zero => simp [asked, different.symm]
    | succ steps ih =>
      rw [asked_succ, List.countP_append, List.countP_append, ih.1, ih.2]
      simp [different, different.symm]

theorem Routine.callsTo_collect (pulls : Nat) :
    (Routine.collect step predicate F P initial).callsTo pulls =
      asked step predicate F initial pulls := by
  induction pulls with
  | zero => rfl
  | succ pulls ih =>
    rw [callsTo_succ, ih]
    cases pulls with
    | zero => rfl
    | succ steps => exact (asked_succ steps).symm

theorem Callable.Computes.logs_taken (decides : predicate.Computes code P) {candidate : Value}
    (free : candidate.LazyFree) (rest : Generator) (machine : Machine σ) :
    Logs code (do
        let verdict ← predicate.apply [candidate]
        if ← verdict.truth then return some (candidate, rest) else return none) machine
      (.ok (if (P candidate).plainTruth then some (candidate, rest) else none))
      [.called predicate [candidate]] machine := by
  refine (decides.returns free machine).bind ((decides.lazyFree free).logs_truth.bind ?_)
  cases (P candidate).plainTruth <;> exact .pure _ machine

theorem Callable.Computes.sound_collect (computes : step.Computes code F)
    (decides : predicate.Computes code P) (free : initial.LazyFree) :
    (Routine.collect step predicate F P initial).Sound code := by
  intro i before machine
  rw [show (Routine.collect step predicate F P initial).item i = _ from asLongAs_of_before before,
    apply_ite (Option.map _)]
  have iterates := free.iterate computes.lazyFree
  cases i with
  | zero => exact ⟨_, Logs.bind (.pure _ machine) (decides.logs_taken free _ machine), rfl⟩
  | succ i =>
    have called := computes.returns (iterates i) machine
    rw [← Function.iterate_succ_apply' F i initial] at called
    exact ⟨_, called.bind (decides.logs_taken (iterates (i + 1)) _ machine), rfl⟩

/-- The collected sequence is the iterates before the first of which the predicate does not hold, and
all of them if it holds of each. By whichever handles and between whatever else its elements are
read, the predicate has been called once on each element, and once more, on the iterate that it
refuses, when the end has been found; the step has been called once for each of these iterates but
the first, on the one before it. -/
theorem collect_takes_while (computes : step.Computes code F) (decides : predicate.Computes code P)
    (free : initial.LazyFree) {before made : Machine σ} {handle : Handle}
    (built : Ends code (Handle.collect step predicate initial) before (.ok handle) made) :
    (∀ first, ¬ Truthy code made (P (F^[first] initial)) →
      (∀ i < first, Truthy code made (P (F^[i] initial))) →
        made.Consists code handle.buffer
          (fun k => ((List.range first).map (F^[·] initial))[k]?) ∧
        F^[first] initial ∉ (List.range first).map (F^[·] initial)) ∧
    ((∀ i, Truthy code made (P (F^[i] initial))) →
      made.Consists code handle.buffer fun k => some (F^[k] initial)) ∧
    (∀ {log later}, Usage code handle.buffer made log later →
      ((later.store.buffer handle.buffer).state ≠ .done → callsIn log =
        asked step predicate F initial (later.store.buffer handle.buffer).realized.size) ∧
      ((later.store.buffer handle.buffer).state = .done → callsIn log =
        asked step predicate F initial
          ((later.store.buffer handle.buffer).realized.size + 1))) ∧
    (step ≠ predicate → ∀ iterates,
      (asked step predicate F initial iterates).countP (·.1 = step) = iterates - 1 ∧
      (asked step predicate F initial iterates).countP (·.1 = predicate) = iterates) := by
  have sound := computes.sound_collect decides free
  have consists := sound.consists (Routine.performs_suspended built).2
  have truthy_iff (i : Nat) : Truthy code made (P (F^[i] initial)) ↔ _ :=
    (decides.lazyFree (free.iterate computes.lazyFree i)).truthy_iff
  simp only [truthy_iff, Bool.not_eq_true]
  refine ⟨fun first refused accepted => ⟨?_, ?_⟩, fun accepted => ?_, fun {log later} usage => ?_,
    count_asked⟩
  · rwa [← funext (asLongAs_of_first accepted refused)]
  · simp only [List.mem_map, List.mem_range, not_exists, not_and]
    intro i lt same
    rw [← same, accepted i lt] at refused
    cases refused
  · rwa [← funext (asLongAs_of_all accepted)]
  · have calls := sound.calls built usage
    rw [Routine.callsTo_collect] at calls
    refine ⟨fun state => ?_, fun state => ?_⟩
    · rwa [Buffer.pulls_of_ne_done state] at calls
    · rwa [Buffer.pulls_of_done state] at calls

end Collect

def notTwo (v : Value) : Value :=
  if v.integer? = some 2 then .ofInt 0 else .ofInt 1

def tester : Callable := ⟨1, .closure⟩

def testingCode : Code Unit := pureCode fun f args =>
  if f = counter then countUp (args.headD .empty) else notTwo (args.headD .empty)

/-- Counting up from zero is collected up to one. An element is read twice, and then all are forced:
the predicate has been asked once about each element and about two. -/
theorem collect_takes_while_notTwo :
    ∃ made log later,
      Ends testingCode (Handle.collect counter tester (.ofInt 0)) unused (.ok ⟨0, 0⟩)
        made ∧
      made.Consists testingCode 0 (fun k => [Value.ofInt 0, .ofInt 1][k]?) ∧
      Usage testingCode 0 made log later ∧
      callsIn log = [(tester, [.ofInt 0]), (counter, [.ofInt 0]), (tester, [.ofInt 1]),
        (counter, [.ofInt 1]), (tester, [.ofInt 2])] ∧
      (callsIn log).countP (·.1 = counter) = 2 ∧ (callsIn log).countP (·.1 = tester) = 3 := by
  have runs : ∃ made first second later one two three,
      Ends testingCode (Handle.collect counter tester (.ofInt 0)) unused (.ok ⟨0, 0⟩)
        made ∧
      Logs testingCode (Handle.get ⟨0, 0⟩ 1) made (.ok (some (.ofInt 1))) one first ∧
      Logs testingCode (Handle.get ⟨0, 4⟩ 1) first (.ok (some (.ofInt 1))) two second ∧
      Logs testingCode (Handle.force ⟨0, 1⟩) second (.ok [.ofInt 0, .ofInt 1]) three
        later ∧
      (later.store.buffer 0).state = .done ∧ (later.store.buffer 0).realized.size = 2 :=
    ⟨_, _, _, _, _, _, _, ⟨9, rfl⟩, ⟨9, rfl, rfl⟩, ⟨9, rfl, rfl⟩, ⟨9, rfl, rfl⟩, rfl, rfl⟩
  obtain ⟨made, first, second, later, _, _, _, built, got, again, forced, state, size⟩ := runs
  have computes : counter.Computes testingCode countUp :=
    computes_pureCode rfl lazyFree_countUp
  have decides : tester.Computes testingCode notTwo := by
    refine computes_pureCode rfl fun {v} _ => ?_
    change (if v.integer? = some 2 then Value.ofInt 0 else .ofInt 1).LazyFree
    split <;> exact .number _
  have free : (Value.ofInt 0).LazyFree := .number 0
  obtain ⟨finite, _, calls, counts⟩ := collect_takes_while computes decides free built
  have truthy_iff (i : Nat) : Truthy testingCode made _ ↔ _ :=
    (decides.lazyFree (free.iterate computes.lazyFree i)).truthy_iff
  obtain ⟨consists, _⟩ := finite 2 (by rw [truthy_iff]; exact Bool.false_ne_true) fun i lt => by
    rw [truthy_iff]
    match i with
    | 0 | 1 => rfl
  have usage := ((Usage.start.read (Action.Reads.get ⟨0, 0⟩ 1) got).read
    (Action.Reads.get ⟨0, 4⟩ 1) again).read (Action.Reads.force ⟨0, 1⟩) forced
  have called := (calls usage).2 state
  rw [size] at called
  obtain ⟨steps, tests⟩ := counts (by decide) 3
  rw [← called] at steps tests
  exact ⟨made, _, later, built, consists, usage, called, steps, tests⟩

end Terse
