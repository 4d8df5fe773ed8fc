import Terse.Machine.Action

namespace Terse

variable {σ : Type}

/-- The result of a call: the top of the stack, which is the last value, or the empty list. -/
def resultOf (stack : List Value) : Value :=
  stack.getLast?.getD .empty

/-- Calls a callable. The arguments of a primitive are counted before its body runs. -/
def Callable.apply (f : Callable) (args : List Value) : Action σ Value :=
  match f.convention with
  | .primitive name least most =>
    if args.length < least ∨ most < args.length then
      .fail (.argumentCount name least most args.length)
    else resultOf <$> Action.request (.invoke f args)
  | .closure | .named _ => resultOf <$> Action.request (.invoke f args)

def Value.apply (callee : Value) (args : List Value) : Action σ Value :=
  match callee with
  | .function f => f.apply args
  | other => .fail (.notCallable other.type)

/-- Folds items from the left, without a start value; nothing folds to zero. -/
def Callable.fold (combiner : Callable) : List Value → Action σ Value
  | [] => .answer (.ofInt 0)
  | first :: items => items.foldlM (fun working item => combiner.apply [working, item]) first

end Terse
