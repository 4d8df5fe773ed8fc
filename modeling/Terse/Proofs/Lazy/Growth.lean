import Mathlib.Logic.Relation
import Terse.Proofs.Machine.Log

namespace Terse

variable {σ α : Type}

namespace Store

theorem lt_size_of_state_ne_done {store : Store} {id : Nat}
    (state : (store.buffer id).state ≠ .done) : id < store.buffers.size := by
  apply Nat.lt_of_not_le
  intro outside
  apply state
  rw [buffer_of_size_le outside]
  rfl

theorem buffer_add_of_ne {store : Store} {id : Nat} (ne : id ≠ store.buffers.size)
    (generator : Generator) : (store.add generator).2.buffer id = store.buffer id := by
  simp [buffer, add, Array.getElem?_push, ne]

/-- From one store to another by a run that is logged. -/
structure Grows (before : Store) (log : List Event) (after : Store) : Prop where
  size_le : before.buffers.size ≤ after.buffers.size
  realized : ∀ id < before.buffers.size,
    (after.buffer id).realized.toList = (before.buffer id).realized.toList ++ producedFor id log
  done : ∀ id < before.buffers.size, (before.buffer id).state = .done →
    after.buffer id = before.buffer id
  running : ∀ id, (before.buffer id).state = .running → after.buffer id = before.buffer id
  runningBefore : ∀ id, (after.buffer id).state = .running → (before.buffer id).state = .running

namespace Grows

theorem refl (store : Store) : store.Grows [] store :=
  ⟨Nat.le_refl _, fun _ _ => (List.append_nil _).symm, fun _ _ _ => rfl, fun _ _ => rfl,
    fun _ state => state⟩

theorem trans {before between after : Store} {first second : List Event}
    (one : before.Grows first between) (two : between.Grows second after) :
    before.Grows (first ++ second) after where
  size_le := Nat.le_trans one.size_le two.size_le
  realized id inside := by
    rw [two.realized id (Nat.lt_of_lt_of_le inside one.size_le), one.realized id inside,
      producedFor_append, List.append_assoc]
  done id inside state := by
    have same := one.done id inside state
    rw [two.done id (Nat.lt_of_lt_of_le inside one.size_le) (same ▸ state), same]
  running id state := by
    have same := one.running id state
    rw [two.running id (same ▸ state), same]
  runningBefore id state := one.runningBefore id (two.runningBefore id state)

theorem called {before after : Store} {log : List Event} (f : Callable) (args : List Value)
    (grows : before.Grows log after) : before.Grows (.called f args :: log) after :=
  { grows with
    realized := fun id inside => by rw [producedFor_called]; exact grows.realized id inside }

theorem add (store : Store) (generator : Generator) :
    store.Grows [] (store.add generator).2 where
  size_le := by simp [Store.add]
  realized id inside := by
    rw [buffer_add_of_ne (Nat.ne_of_lt inside)]
    exact (List.append_nil _).symm
  done id inside _ := buffer_add_of_ne (Nat.ne_of_lt inside) generator
  running id state := by
    have inside : id < store.buffers.size := lt_size_of_state_ne_done (by simp [state])
    exact buffer_add_of_ne (Nat.ne_of_lt inside) generator
  runningBefore id state := by
    by_cases fresh : id = store.buffers.size
    · subst fresh
      have new : (store.add generator).2.buffer store.buffers.size = .ofGenerator generator :=
        buffer_add_self store generator
      rw [new] at state
      cases state
    · rwa [buffer_add_of_ne fresh] at state

end Grows

end Store

theorem Buffer.afterPull_state_ne_running (generator : Generator)
    (result : Except Failure (Option (Value × Generator))) (buffer : Buffer) :
    (buffer.afterPull generator result).state ≠ .running := by
  rcases result with e | _ | ⟨value, rest⟩ <;> simp [afterPull, produce, withState]

theorem Buffer.afterPull_realized (generator : Generator) (id : Nat)
    (result : Except Failure (Option (Value × Generator))) (buffer : Buffer) :
    (buffer.afterPull generator result).realized.toList =
      buffer.realized.toList ++ producedFor id (Event.ofPull id result) := by
  rcases result with e | _ | ⟨value, rest⟩ <;>
    simp [afterPull, produce, withState, Event.ofPull, producedFor]

theorem producedFor_ofPull_of_ne {id other : Nat} (ne : other ≠ id)
    (result : Except Failure (Option (Value × Generator))) :
    producedFor other (Event.ofPull id result) = [] := by
  rcases result with e | _ | ⟨value, rest⟩ <;> simp [Event.ofPull, producedFor, Ne.symm ne]

/-- A pull between growing stores: while it lasts, the pulled buffer is kept at running. -/
theorem Store.Grows.pull {before after : Store} {log : List Event} {id : Nat}
    {generator : Generator} {result : Except Failure (Option (Value × Generator))}
    (state : (before.buffer id).state = .ready generator)
    (grows : (before.update id (·.withState .running)).Grows log after) :
    before.Grows (log ++ Event.ofPull id result)
      (after.update id (·.afterPull generator result)) := by
  have inside : id < before.buffers.size := lt_size_of_state_ne_done (by simp [state])
  have size : (before.update id (·.withState .running)).buffers.size = before.buffers.size :=
    size_update before id _
  have pulled := buffer_update_self inside (·.withState .running)
  have inside' : id < after.buffers.size := Nat.lt_of_lt_of_le (size ▸ inside) grows.size_le
  have rests : after.buffer id = (before.buffer id).withState .running := by
    rw [grows.running id (by rw [pulled]; rfl), pulled]
  have nothing : producedFor id log = [] := by
    have realized := grows.realized id (size ▸ inside)
    rw [rests, pulled] at realized
    exact List.append_right_eq_self.mp realized.symm
  have settled := buffer_update_self inside' (·.afterPull generator result)
  refine ⟨?_, ?_, ?_, ?_, ?_⟩
  · rw [size_update, ← size]
    exact grows.size_le
  · intro other here
    rw [producedFor_append]
    by_cases same : other = id
    · subst same
      rw [settled, Buffer.afterPull_realized generator other, rests, nothing]
      rfl
    · rw [buffer_update_of_ne same, grows.realized other (size ▸ here), buffer_update_of_ne same,
        producedFor_ofPull_of_ne same, List.append_nil]
  · intro other here done
    have same : other ≠ id := by
      rintro rfl
      simp [state] at done
    have before_same : (before.update id (·.withState .running)).buffer other = before.buffer other :=
      buffer_update_of_ne same _
    rw [buffer_update_of_ne same, grows.done other (size ▸ here) (before_same ▸ done), before_same]
  · intro other running
    have same : other ≠ id := by
      rintro rfl
      simp [state] at running
    have before_same : (before.update id (·.withState .running)).buffer other = before.buffer other :=
      buffer_update_of_ne same _
    rw [buffer_update_of_ne same, grows.running other (before_same ▸ running), before_same]
  · intro other running
    by_cases same : other = id
    · subst same
      rw [settled] at running
      exact absurd running (Buffer.afterPull_state_ne_running _ _ _)
    · rw [buffer_update_of_ne same] at running
      have before_running := grows.runningBefore other running
      rwa [buffer_update_of_ne same] at before_running

namespace Machine

variable {code : Code σ}

theorem grows_law (code : Code σ) :
    RunLaw code fun before log after => before.store.Grows log after.store where
  rest machine := .refl machine.store
  append := .trans
  called f args grows := grows.called f args
  suspended machine generator := .add machine.store generator
  sessionSet machine _ := .refl machine.store
  hostSet machine _ := .refl machine.store
  pulled within _ _ _ _ _ state ended := Store.Grows.pull state (within ended)

theorem Ends.grows {action : Action σ α} {before after : Machine σ} {result : Except Failure α}
    (ended : Ends code action before result after) :
    ∃ log, before.store.Grows log after.store :=
  let ⟨log, logged⟩ := ended.logs
  ⟨log, (grows_law code).of_logs logged⟩

theorem buffer_begun {machine : Machine σ} {id : Nat} {generator : Generator}
    (state : (machine.store.buffer id).state = .ready generator) :
    (machine.updateBuffer id (·.withState .running)).store.buffer id =
      (machine.store.buffer id).withState .running :=
  Store.buffer_update_self (Store.lt_size_of_state_ne_done (by simp [state])) _

theorem Ends.rests {action : Action σ α} {before after : Machine σ} {result : Except Failure α}
    {id : Nat} {generator : Generator} (state : (before.store.buffer id).state = .ready generator)
    (ended : Ends code action (before.updateBuffer id (·.withState .running)) result after) :
    id < after.store.buffers.size ∧
      after.store.buffer id = (before.store.buffer id).withState .running := by
  have begun := buffer_begun state
  have inside : id < before.store.buffers.size :=
    Store.lt_size_of_state_ne_done (by simp [state])
  obtain ⟨log, grows⟩ := ended.grows
  constructor
  · exact Nat.lt_of_lt_of_le (by simpa [updateBuffer, Store.size_update] using inside)
      grows.size_le
  · rw [grows.running id (by rw [begun]; rfl), begun]

theorem Ends.buffer_settled {action : Action σ α} {before after : Machine σ}
    {result : Except Failure α} {id : Nat} {generator : Generator}
    (state : (before.store.buffer id).state = .ready generator)
    (ended : Ends code action (before.updateBuffer id (·.withState .running)) result after)
    (f : Buffer → Buffer) :
    (after.updateBuffer id f).store.buffer id = f ((before.store.buffer id).withState .running) := by
  obtain ⟨inside, rests⟩ := ended.rests state
  rw [updateBuffer, Store.buffer_update_self inside, rests]

end Machine

end Terse
