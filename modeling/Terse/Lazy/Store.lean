import Terse.Lazy.Generator

/-! The store of lazy sequences. A buffer holds the elements realized so far and the generator of
the further ones. All handles on a buffer read the same elements, so each is produced once. -/
namespace Terse

inductive BufferState where
  | ready (generator : Generator)
  | running
  | done

structure Buffer where
  realized : Array Value
  state : BufferState

namespace BufferState

def describe : BufferState → String
  | ready generator => generator.describe
  | running => "Running"
  | done => "Done"

def isDone : BufferState → Bool
  | done => true
  | _ => false

def isRunning : BufferState → Bool
  | running => true
  | _ => false

end BufferState

namespace Buffer

def ofGenerator (generator : Generator) : Buffer := ⟨#[], .ready generator⟩

/-- No elements at all; this stands for buffers that no handle was ever given out on. -/
def exhausted : Buffer := ⟨#[], .done⟩

def produce (buffer : Buffer) (value : Value) (generator : Generator) : Buffer :=
  ⟨buffer.realized.push value, .ready generator⟩

def withState (buffer : Buffer) (state : BufferState) : Buffer :=
  { buffer with state := state }

end Buffer

structure Store where
  buffers : Array Buffer

namespace Store

def empty : Store := ⟨#[]⟩

def buffer (store : Store) (id : Nat) : Buffer :=
  store.buffers[id]?.getD .exhausted

def update (store : Store) (id : Nat) (f : Buffer → Buffer) : Store :=
  ⟨store.buffers.modify id f⟩

def add (store : Store) (generator : Generator) : Handle × Store :=
  (⟨store.buffers.size, 0⟩, ⟨store.buffers.push (.ofGenerator generator)⟩)

def realized (store : Store) (handle : Handle) : List Value :=
  (store.buffer handle.buffer).realized.toList

def isExhausted (store : Store) (handle : Handle) : Bool :=
  (store.buffer handle.buffer).state.isDone

theorem buffer_of_size_le {store : Store} {id : Nat} (h : store.buffers.size ≤ id) :
    store.buffer id = .exhausted := by
  simp [buffer, Array.getElem?_eq_none h]

theorem size_update (store : Store) (id : Nat) (f : Buffer → Buffer) :
    (store.update id f).buffers.size = store.buffers.size := by
  simp [update]

theorem buffer_update_self {store : Store} {id : Nat} (h : id < store.buffers.size)
    (f : Buffer → Buffer) : (store.update id f).buffer id = f (store.buffer id) := by
  simp [buffer, update, h, Array.getElem_modify]

theorem buffer_update_of_ne {store : Store} {id other : Nat} (h : other ≠ id)
    (f : Buffer → Buffer) : (store.update id f).buffer other = store.buffer other := by
  simp [buffer, update, Array.getElem?_modify, Ne.symm h]

theorem buffer_add_self (store : Store) (generator : Generator) :
    (store.add generator).2.buffer (store.add generator).1.buffer = .ofGenerator generator := by
  simp [buffer, add]

theorem buffer_add_of_lt {store : Store} {id : Nat} (h : id < store.buffers.size)
    (generator : Generator) : (store.add generator).2.buffer id = store.buffer id := by
  simp [buffer, add, Array.getElem?_push, Nat.ne_of_lt h]

end Store

end Terse
