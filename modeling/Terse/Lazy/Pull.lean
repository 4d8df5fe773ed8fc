import Terse.Machine.Call
import Terse.Sequence.Basic

namespace Terse

variable {σ : Type}

/-- The next element and the generator of those behind it; nothing at the end. If a callable or a
source fails, so does the pull, and no state has moved. -/
def Generator.next : Generator → Action σ (Option (Value × Generator))
  | range current stop =>
    return if current < stop then some (.ofInt current, range (current + 1) stop) else none
  | fixedPoint step (some first) _ =>
    return some (first, fixedPoint step none (some first))
  | fixedPoint _ none none => return none
  | fixedPoint step none (some last) => do
    let next ← step.apply [last]
    if ← next.equals last then return none
    else return some (next, fixedPoint step none (some next))
  | scan combiner items accumulator index =>
    match accumulator <|> items.head?, items[index]? with
    | some left, some right => do
      let folded ← combiner.apply [left, right]
      return some (folded, scan combiner items (some folded) (index + 1))
    | _, _ => return none
  | collect step predicate current started => do
    let candidate ← if started then step.apply [current] else pure current
    let verdict ← predicate.apply [candidate]
    if ← verdict.truth then return some (candidate, collect step predicate candidate true)
    else return none
  | zip sources index => do
    let cells ← sources.mapM fun source => source.get index
    if cells.all Option.isNone then return none
    else return some (.list (cells.map (·.getD (.ofInt 0))), zip sources (index + 1))
  | native producer pulls => do
    let value ← Action.request (.produce producer pulls)
    return value.map fun value => (value, native producer (pulls + 1))

namespace Handle

def range (start stop : Int) : Action σ Handle :=
  Action.suspend (.range start stop)

/-- `initial`, `step initial`, and so on, up to the first value that equals the next one. -/
def fixedPoint (step : Callable) (initial : Value) : Action σ Handle :=
  Action.suspend (.fixedPoint step (some initial) none)

/-- Cumulative reduction: element `i` is the left fold of the first `i + 2` items. -/
def scan (combiner : Callable) (items : List Value) : Action σ Handle :=
  Action.suspend (.scan combiner items none 1)

def collect (step predicate : Callable) (initial : Value) : Action σ Handle :=
  Action.suspend (.collect step predicate initial false)

/-- The rows across sources; a source that has ended gives zeros until all have. -/
def zip (sources : List Sequence) : Action σ Handle :=
  Action.suspend (.zip sources 0)

def native (producer : Nat) : Action σ Handle :=
  Action.suspend (.native producer 0)

end Handle

end Terse
