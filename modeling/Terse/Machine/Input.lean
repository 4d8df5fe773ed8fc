import Terse.Input.Stack
import Terse.Machine.Action

namespace Terse.Action

variable {σ α : Type}

def takeInput : Action σ Value := do
  let (value, after) := (← session).takeInput
  setSession after
  return value

def pop (count : Nat) (stack : Stack) : Action σ (Value × Stack) := do
  let (value, stack, after) := stack.pop count (← session)
  setSession after
  return (value, stack)

/-- Runs an action with `args` as the innermost source of input. The source before is put back
whether the action succeeds or not. -/
def withArguments (args : List Value) (action : Action σ α) : Action σ α := do
  let (previous, after) := (← session).enter args
  setSession after
  let result ← attempt action
  setSession ((← session).restore previous)
  ofExcept result

end Terse.Action
