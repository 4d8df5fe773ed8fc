import Terse.Number.Digits
import Terse.Value.Basic

namespace Terse

inductive Generator where
  | range (current stop : Int)
  /-- The iterates of `step`, up to the first that equals its successor. Until the first element is
  produced it is kept in `initial`, afterwards the last one in `previous`. -/
  | fixedPoint (step : Callable) (initial previous : Option Value)
  /-- The left folds over the prefixes of `items` that have more than `index` of them. -/
  | scan (combiner : Callable) (items : List Value) (accumulator : Option Value) (index : Nat)
  | collect (step predicate : Callable) (current : Value) (started : Bool)
  | zip (sources : List Sequence) (index : Nat)
  /-- A producer from outside that has been pulled `pulls` times. -/
  | native (producer pulls : Nat)

namespace Generator

/-- The generator to go on with after its pull has failed: the same one, except that a producer
from outside counts the pull. -/
def afterFailure : Generator → Generator
  | native producer pulls => native producer (pulls + 1)
  | generator => generator

def describe : Generator → String
  | range current stop => "Range(" ++ intText current ++ ".." ++ intText stop ++ ")"
  | fixedPoint step _ _ => "FixedPoint(" ++ step.display ++ ")"
  | scan combiner _ _ index =>
    "Scan(" ++ combiner.display ++ ", at " ++ natText index ++ ")"
  | collect step _ _ _ => "CollectUntilFalse(" ++ step.display ++ ")"
  | zip sources index =>
    "Zip(" ++ natText sources.length ++ " sources, at " ++ natText index ++ ")"
  | native _ _ => "Native"

end Generator

end Terse
