import Terse.Proofs.Lazy.Reading

/-! Pulls within pulls. The generator of a buffer is checked out while it runs, and every way in which
its pull can end puts one back. A read that meets its own pull is refused, exactly if it asks for
more than there is. -/
namespace Terse

variable {σ : Type}

namespace Machine

variable {code : Code σ}

section Running

variable {machine : Machine σ} {handle : Handle}

theorem run_get_of_running (state : (machine.store.buffer handle.buffer).state = .running)
    {index : Nat} (behind : (machine.store.buffer handle.buffer).realized.size ≤ index)
    (rounds : Nat) :
    run code (rounds + 2) (handle.get index) machine = .failure .reentrantPull machine := by
  rw [run_get, realize_of_running _ state]
  simpa [Demand.isMet] using Nat.lt_succ_of_le behind

theorem run_length_of_running (state : (machine.store.buffer handle.buffer).state = .running)
    (rounds : Nat) :
    run code (rounds + 2) handle.length machine = .failure .reentrantPull machine := by
  rw [run_length, realize_of_running rfl state]

theorem run_force_of_running (state : (machine.store.buffer handle.buffer).state = .running)
    (rounds : Nat) :
    run code (rounds + 2) handle.force machine = .failure .reentrantPull machine := by
  rw [run_force, realize_of_running rfl state]

end Running

/-- At every point within a pull its buffer is running and holds what it held before. -/
theorem Reaches.pulling {before inside : Machine σ} {id : Nat} {generator : Generator}
    (state : (before.store.buffer id).state = .ready generator)
    (reaches : Reaches code (before.updateBuffer id (·.withState .running)) inside) :
    inside.store.buffer id = (before.store.buffer id).withState .running := by
  have begun := buffer_begun state
  have here : id < before.store.buffers.size :=
    Store.lt_size_of_state_ne_done (by simp [state])
  have keeps : Keeps id _ inside :=
    reaches.keeps (by simpa [updateBuffer, Store.size_update] using here)
  rw [keeps.running (by rw [begun]; rfl), begun]

/-- No pull leaves a sequence stuck, and re-entrance is reported exactly. The buffers that are running
after an action, however it has ended, are those that were running before, with the elements they
had. At every point within the pull of a buffer, reading one of the elements that it had when the
pull began answers this element; reading behind them, counting and forcing are refused, and the
machine is as before. -/
theorem running_exactly_while_pulled (code : Code σ) :
    (∀ {α : Type} {action : Action σ α} {before after : Machine σ} {result : Except Failure α},
      Ends code action before result after → ∀ id,
        ((after.store.buffer id).state = .running ↔ (before.store.buffer id).state = .running) ∧
        ((before.store.buffer id).state = .running →
          (after.store.buffer id).realized = (before.store.buffer id).realized)) ∧
    (∀ {id : Nat} {generator : Generator} {before inside : Machine σ},
      (before.store.buffer id).state = .ready generator →
      Reaches code (before.updateBuffer id (·.withState .running)) inside →
      ∀ handle : Handle, handle.buffer = id → ∀ rounds,
        (∀ index < (before.store.buffer id).realized.size,
          run code (rounds + 2) (handle.get index) inside =
            .answer (before.store.buffer id).realized[index]? inside) ∧
        (∀ index, (before.store.buffer id).realized.size ≤ index →
          run code (rounds + 2) (handle.get index) inside = .failure .reentrantPull inside) ∧
        run code (rounds + 2) handle.length inside = .failure .reentrantPull inside ∧
        run code (rounds + 2) handle.force inside = .failure .reentrantPull inside) ∧
    Failure.reentrantPull.kind = .reentrant := by
  refine ⟨?_, ?_, rfl⟩
  · intro α action before after result ended id
    obtain ⟨log, grows⟩ := ended.grows
    refine ⟨⟨grows.runningBefore id, fun state => ?_⟩, fun state => by rw [grows.running id state]⟩
    rw [grows.running id state]
    exact state
  · rintro _ generator before inside state reaches handle rfl rounds
    have pulling := reaches.pulling state
    have running : (inside.store.buffer handle.buffer).state = .running := by
      rw [pulling]
      rfl
    have held : (inside.store.buffer handle.buffer).realized =
        (before.store.buffer handle.buffer).realized := by
      rw [pulling]
      rfl
    refine ⟨fun index here => ?_, fun index behind => ?_, run_length_of_running running rounds,
      run_force_of_running running rounds⟩
    · rw [← held] at here ⊢
      exact run_get_of_lt here rounds
    · rw [← held] at behind
      exact run_get_of_running running behind rounds

end Machine

/-- Producers 0 and 1 each read the first element of the other's sequence. -/
def mutualCode : Code Unit :=
  ⟨fun _ _ => .answer [], fun producer _ => Handle.get ⟨1 - producer, 0⟩ 0⟩

def mutualPair : Machine Unit :=
  ⟨((Store.empty.add (.native 0 0)).2.add (.native 1 0)).2, .initial [] {} .closed, ()⟩

/-- Two sequences that pull each other: the read is refused within the second pull, and neither is
stuck afterwards. Within the pull of the first one, it cannot be counted. -/
theorem running_exactly_while_pulled_mutually :
    (∃ after, Machine.Ends mutualCode (Handle.get ⟨0, 0⟩ 0) mutualPair (.error .reentrantPull) after ∧
      (after.store.buffer 0).state ≠ .running ∧ (after.store.buffer 1).state ≠ .running) ∧
    Machine.run mutualCode 2 (Handle.length ⟨0, 0⟩)
        (mutualPair.updateBuffer 0 (·.withState .running)) =
      .failure .reentrantPull (mutualPair.updateBuffer 0 (·.withState .running)) := by
  have exactly := Machine.running_exactly_while_pulled mutualCode
  have refused : ∃ after, Machine.Ends mutualCode (Handle.get ⟨0, 0⟩ 0) mutualPair
      (.error .reentrantPull) after := ⟨_, 9, rfl⟩
  obtain ⟨after, refused⟩ := refused
  refine ⟨⟨after, refused, fun stuck => ?_, fun stuck => ?_⟩, ?_⟩
  · cases (exactly.1 refused 0).1.mp stuck
  · cases (exactly.1 refused 1).1.mp stuck
  · have ready : (mutualPair.store.buffer 0).state = .ready (.native 0 0) := rfl
    exact (exactly.2.1 ready .refl ⟨0, 0⟩ rfl 0).2.2.1

end Terse
