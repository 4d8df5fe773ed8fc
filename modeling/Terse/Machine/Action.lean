import Terse.Input.Session
import Terse.Failure
import Terse.Lazy.Store

/-! Actions: computations that need a machine. An action is a tree: it answers, fails, or asks the
machine for something and goes on by the reply, a failure included. Bodies of callables and native
producers are actions too, so what holds of every action holds whatever such bodies do. -/
namespace Terse

inductive Demand where
  | upTo (length : Nat)
  | all
  deriving DecidableEq

/-- Only a generator that has run out satisfies the demand for everything. -/
def Demand.isMet : Demand → (realized : Nat) → Bool
  | .upTo length, realized => length ≤ realized
  | .all, _ => false

/-- What an action may ask for. `σ` is the state that bodies share among themselves. -/
inductive Request (σ : Type) where
  | invoke (f : Callable) (args : List Value)
  /-- Runs a native producer for the pull of this number; no value if it is exhausted. -/
  | produce (producer pull : Nat)
  /-- Realizes a buffer as far as demanded; true if there are that many elements. -/
  | realize (buffer : Nat) (demand : Demand)
  | compare (left right : Sequence)
  | search (handle : Handle) (needle : Value)
  | fill (shape : List Value) (content : Cycle Value)
  | suspend (generator : Generator)
  | store
  | session
  | setSession (session : Session)
  | host
  | setHost (state : σ)

@[reducible] def Request.Reply {σ : Type} : Request σ → Type
  | invoke _ _ => List Value
  | produce _ _ => Option Value
  | realize _ _ => Bool
  | compare _ _ => Bool
  | search _ _ => Bool
  | fill _ _ => List Value × Cycle Value
  | suspend _ => Handle
  | store => Store
  | session => Session
  | setSession _ => Unit
  | host => σ
  | setHost _ => Unit

inductive Action (σ α : Type) where
  | answer (a : α)
  | fail (e : Failure)
  | ask (request : Request σ) (resume : Except Failure request.Reply → Action σ α)

namespace Action

variable {σ α β : Type}

def andThen (f : α → Action σ β) : Action σ α → Action σ β
  | answer a => f a
  | fail e => fail e
  | ask request resume => ask request fun reply => andThen f (resume reply)

instance : Monad (Action σ) where
  pure := answer
  bind action f := action.andThen f

/-- The action with its failure as a value, so that something can be done after it in any case. -/
def attempt : Action σ α → Action σ (Except Failure α)
  | answer a => answer (.ok a)
  | fail e => answer (.error e)
  | ask request resume => ask request fun reply => attempt (resume reply)

def request (q : Request σ) : Action σ q.Reply :=
  ask q fun
    | .ok reply => answer reply
    | .error e => fail e

def ofExcept : Except Failure α → Action σ α
  | .ok a => answer a
  | .error e => fail e

def realize (buffer : Nat) (demand : Demand) : Action σ Bool :=
  request (.realize buffer demand)

def suspend (generator : Generator) : Action σ Handle :=
  request (.suspend generator)

def store : Action σ Store :=
  request .store

def session : Action σ Session :=
  request .session

def setSession (session : Session) : Action σ Unit :=
  request (.setSession session)

def host : Action σ σ :=
  request .host

def setHost (state : σ) : Action σ Unit :=
  request (.setHost state)

theorem andThen_answer (action : Action σ α) : action.andThen answer = action := by
  induction action with
  | answer a => rfl
  | fail e => rfl
  | ask request resume ih => simp [andThen, ih]

theorem andThen_assoc {γ : Type} (action : Action σ α) (f : α → Action σ β)
    (g : β → Action σ γ) :
    (action.andThen f).andThen g = action.andThen fun a => (f a).andThen g := by
  induction action with
  | answer a => rfl
  | fail e => rfl
  | ask request resume ih => simp [andThen, ih]

instance : LawfulMonad (Action σ) :=
  LawfulMonad.mk' (Action σ) andThen_answer (fun _ _ => rfl) andThen_assoc

end Action

end Terse
