import Terse.Lazy.Pull
import Terse.Sequence.Mold

/-! The machine that actions run on. It holds the store of lazy sequences, the session, and a state
that bodies share. Requests may ask for each other without end, so they are answered within a
number of rounds; running out of rounds is neither an answer nor a failure. -/
namespace Terse

structure Machine (σ : Type) where
  store : Store
  session : Session
  host : σ

structure Code (σ : Type) where
  /-- The body of a callable leaves a stack, the result on top, which is at the end. -/
  body : Callable → List Value → Action σ (List Value)
  produce : (producer pull : Nat) → Action σ (Option Value)

inductive Outcome (σ α : Type) where
  | answer (a : α) (machine : Machine σ)
  | failure (e : Failure) (machine : Machine σ)
  | outOfRounds

abbrev Engine (σ : Type) := (q : Request σ) → Machine σ → Outcome σ q.Reply

variable {σ : Type}

/-- Runs an action, each request answered by the engine. -/
def Action.run {α : Type} (engine : Engine σ) : Action σ α → Machine σ → Outcome σ α
  | answer a, machine => .answer a machine
  | fail e, machine => .failure e machine
  | ask q resume, machine =>
    match engine q machine with
    | .answer reply machine => run engine (resume (.ok reply)) machine
    | .failure e machine => run engine (resume (.error e)) machine
    | .outOfRounds => .outOfRounds

theorem Action.run_andThen {α β : Type} (engine : Engine σ) (action : Action σ α)
    (f : α → Action σ β) (machine : Machine σ) :
    (action.andThen f).run engine machine =
      match action.run engine machine with
      | .answer a machine => (f a).run engine machine
      | .failure e machine => .failure e machine
      | .outOfRounds => .outOfRounds := by
  induction action generalizing machine with
  | answer a => rfl
  | fail e => rfl
  | ask q resume ih =>
    simp only [andThen, run]
    cases engine q machine with
    | answer reply machine => exact ih (.ok reply) machine
    | failure e machine => exact ih (.error e) machine
    | outOfRounds => rfl

namespace Machine

def updateBuffer (machine : Machine σ) (id : Nat) (f : Buffer → Buffer) : Machine σ :=
  { machine with store := machine.store.update id f }

/-- Realizes a buffer until the demand is met or the generator has run out. While the generator
produces an element the buffer is running; whatever comes of it, the buffer is not running
afterwards, and after a failure the generator is as good as before. -/
def realize (engine : Engine σ) (id : Nat) (demand : Demand) :
    (rounds : Nat) → Machine σ → Outcome σ Bool
  | 0, _ => .outOfRounds
  | rounds + 1, machine =>
    let buffer := machine.store.buffer id
    if demand.isMet buffer.realized.size then .answer true machine
    else
      match buffer.state with
      | .running => .failure .reentrantPull machine
      | .done => .answer false machine
      | .ready generator =>
        match generator.next.run engine (machine.updateBuffer id (·.withState .running)) with
        | .answer (some (value, rest)) machine =>
          realize engine id demand rounds (machine.updateBuffer id (·.produce value rest))
        | .answer none machine => .answer false (machine.updateBuffer id (·.withState .done))
        | .failure e machine =>
          .failure e (machine.updateBuffer id (·.withState (.ready generator.afterFailure)))
        | .outOfRounds => .outOfRounds

def settle (engine : Engine σ) (step : Nat → Action σ (Option Bool)) :
    (rounds : Nat) → (index : Nat) → Machine σ → Outcome σ Bool
  | 0, _, _ => .outOfRounds
  | rounds + 1, index, machine =>
    match (step index).run engine machine with
    | .answer (some verdict) machine => .answer verdict machine
    | .answer none machine => settle engine step rounds (index + 1) machine
    | .failure e machine => .failure e machine
    | .outOfRounds => .outOfRounds

def respond (code : Code σ) (rounds : Nat) (engine : Engine σ) : Engine σ
  | .invoke f args, machine => (code.body f args).run engine machine
  | .produce producer pull, machine => (code.produce producer pull).run engine machine
  | .realize id demand, machine => realize engine id demand rounds machine
  | .compare left right, machine => settle engine (left.compareAt right) rounds 0 machine
  | .search handle needle, machine => settle engine (handle.searchAt needle) rounds 0 machine
  | .fill shape content, machine => (Shape.fillSlots shape content).run engine machine
  | .suspend generator, machine =>
    let (handle, store) := machine.store.add generator
    .answer handle { machine with store := store }
  | .store, machine => .answer machine.store machine
  | .session, machine => .answer machine.session machine
  | .setSession session, machine => .answer () { machine with session := session }
  | .host, machine => .answer machine.host machine
  | .setHost state, machine => .answer () { machine with host := state }

/-- Answers requests nested at most `rounds` deep, each loop within at most as many rounds. -/
def engine (code : Code σ) : (rounds : Nat) → (q : Request σ) → Machine σ → Outcome σ q.Reply
  | 0, _, _ => .outOfRounds
  | rounds + 1, q, machine => respond code rounds (engine code rounds) q machine

def run {α : Type} (code : Code σ) (rounds : Nat) (action : Action σ α) (machine : Machine σ) :
    Outcome σ α :=
  action.run (engine code rounds) machine

end Machine

end Terse
