import Terse.Proofs.Machine.Ending

namespace Terse

variable {σ α β : Type}

theorem Action.run_request (engine : Engine σ) (q : Request σ) (machine : Machine σ) :
    (Action.request q).run engine machine = engine q machine := by
  simp only [request, run]
  cases engine q machine <;> rfl

namespace Machine

variable {code : Code σ} {before between after : Machine σ}

theorem ends_request {q : Request σ} {result : Except Failure q.Reply} :
    Ends code (Action.request q) before result after ↔
      ∃ rounds, engine code rounds q before = .ofResult result after := by
  simp only [Ends, run, Action.run_request]

theorem ends_map_ok {action : Action σ α} {f : α → β} {b : β} :
    Ends code (f <$> action) before (.ok b) after ↔
      ∃ a, Ends code action before (.ok a) after ∧ b = f a := by
  rw [map_eq_pure_bind, ends_bind_ok]
  constructor
  · rintro ⟨a, between, ended, returned⟩
    obtain ⟨answered, rfl⟩ := ends_pure.mp returned
    exact ⟨a, ended, Except.ok.inj answered⟩
  · rintro ⟨a, ended, rfl⟩
    exact ⟨a, after, ended, ends_pure.mpr ⟨rfl, rfl⟩⟩

theorem ends_store {result : Except Failure Store} :
    Ends code Action.store before result after ↔ result = .ok before.store ∧ after = before := by
  constructor
  · intro ended
    have answered : Ends code Action.store before (.ok before.store) before := ⟨1, rfl⟩
    exact ended.unique answered
  · rintro ⟨rfl, rfl⟩
    exact ⟨1, rfl⟩

theorem ends_suspend {generator : Generator} {result : Except Failure Handle} :
    Ends code (Action.suspend generator) before result after ↔
      result = .ok (before.store.add generator).1 ∧
        after = { before with store := (before.store.add generator).2 } := by
  have answered : Ends code (Action.suspend generator) before
      (.ok (before.store.add generator).1)
      { before with store := (before.store.add generator).2 } := ⟨1, rfl⟩
  constructor
  · intro ended
    exact ended.unique answered
  · rintro ⟨rfl, rfl⟩
    exact answered

theorem ends_invoke {f : Callable} {args : List Value} {result : Except Failure (List Value)} :
    Ends code (Action.request (.invoke f args)) before result after ↔
      Ends code (code.body f args) before result after := by
  rw [ends_request]
  constructor
  · rintro ⟨_ | rounds, ended⟩
    · cases result <;> cases ended
    · exact ⟨rounds, ended⟩
  · rintro ⟨rounds, ended⟩
    exact ⟨rounds + 1, ended⟩

section Realize

variable {id : Nat} {demand : Demand}

theorem ends_realize {result : Except Failure Bool} :
    Ends code (Action.realize id demand) before result after ↔
      ∃ rounds loops,
        realize (engine code rounds) id demand loops before = .ofResult result after := by
  change Ends code (Action.request _) _ _ _ ↔ _
  rw [ends_request]
  constructor
  · rintro ⟨_ | rounds, ended⟩
    · cases result <;> cases ended
    · exact ⟨rounds, rounds, ended⟩
  · rintro ⟨rounds, loops, ended⟩
    have enough := realize_below (engine_below code (Nat.le_max_left rounds loops)) id demand
      (Nat.le_max_right rounds loops) before
    exact ⟨max rounds loops + 1, Outcome.eq_of_below enough ended⟩

theorem Ends.realize_met
    (met : demand.isMet (before.store.buffer id).realized.size = true) :
    Ends code (Action.realize id demand) before (.ok true) before :=
  ends_realize.mpr ⟨0, 1, realize_of_met met⟩

theorem Ends.realize_done (unmet : demand.isMet (before.store.buffer id).realized.size = false)
    (state : (before.store.buffer id).state = .done) :
    Ends code (Action.realize id demand) before (.ok false) before :=
  ends_realize.mpr ⟨0, 1, realize_of_done unmet state⟩

theorem Ends.realize_over {generator : Generator}
    (unmet : demand.isMet (before.store.buffer id).realized.size = false)
    (state : (before.store.buffer id).state = .ready generator)
    (pulled : Ends code generator.next (before.updateBuffer id (·.withState .running)) (.ok none)
      between) :
    Ends code (Action.realize id demand) before (.ok false)
      (between.updateBuffer id (·.withState .done)) := by
  obtain ⟨rounds, pulled⟩ := pulled
  refine ends_realize.mpr ⟨rounds, 1, ?_⟩
  rw [realize_of_ready unmet state]
  unfold run at pulled
  rw [pulled]
  rfl

theorem Ends.realize_more {generator rest : Generator} {value : Value}
    {result : Except Failure Bool}
    (unmet : demand.isMet (before.store.buffer id).realized.size = false)
    (state : (before.store.buffer id).state = .ready generator)
    (pulled : Ends code generator.next (before.updateBuffer id (·.withState .running))
      (.ok (some (value, rest))) between)
    (more : Ends code (Action.realize id demand) (between.updateBuffer id (·.produce value rest))
      result after) :
    Ends code (Action.realize id demand) before result after := by
  obtain ⟨few, pulled⟩ := pulled
  obtain ⟨rounds, loops, more⟩ := ends_realize.mp more
  refine ends_realize.mpr ⟨max few rounds, loops + 1, ?_⟩
  rw [realize_of_ready unmet state]
  have pulled := run_of_le (Nat.le_max_left few rounds) pulled
  unfold run at pulled
  rw [pulled]
  exact Outcome.eq_of_below (realize_below (engine_below code (Nat.le_max_right few rounds)) id
    demand (Nat.le_refl loops) _) more

theorem Ends.get {handle : Handle} {index : Nat} {reached : Bool}
    (ended : Ends code (Action.realize handle.buffer (.upTo (index + 1))) before (.ok reached)
      after) : ∃ item, Ends code (handle.get index) before (.ok item) after := by
  cases reached with
  | false =>
    refine ⟨none, ends_bind_ok.mpr ⟨false, after, ended, ?_⟩⟩
    exact ends_pure.mpr ⟨rfl, rfl⟩
  | true =>
    refine ⟨(after.store.buffer handle.buffer).realized[index]?,
      ends_bind_ok.mpr ⟨true, after, ended, ?_⟩⟩
    refine ends_bind_ok.mpr ⟨after.store, after, ends_store.mpr ⟨rfl, rfl⟩, ?_⟩
    exact ends_pure.mpr ⟨rfl, rfl⟩

end Realize

/-! Going on until there is a verdict. -/

/-- From this index on, the steps come to this result. -/
def Settles (code : Code σ) (step : Nat → Action σ (Option Bool)) (index : Nat)
    (before : Machine σ) (result : Except Failure Bool) (after : Machine σ) : Prop :=
  ∃ rounds loops, settle (engine code rounds) step loops index before = .ofResult result after

section Settle

variable {step : Nat → Action σ (Option Bool)} {index : Nat}

theorem Settles.verdict {verdict : Bool}
    (taken : Ends code (step index) before (.ok (some verdict)) after) :
    Settles code step index before (.ok verdict) after := by
  obtain ⟨rounds, taken⟩ := taken
  refine ⟨rounds, 1, ?_⟩
  unfold run at taken
  simp only [settle, taken]
  rfl

theorem Settles.next {result : Except Failure Bool}
    (taken : Ends code (step index) before (.ok none) between)
    (rest : Settles code step (index + 1) between result after) :
    Settles code step index before result after := by
  obtain ⟨few, taken⟩ := taken
  obtain ⟨rounds, loops, rest⟩ := rest
  refine ⟨max few rounds, loops + 1, ?_⟩
  have taken := run_of_le (Nat.le_max_left few rounds) taken
  unfold run at taken
  simp only [settle, taken]
  exact Outcome.eq_of_below (settle_below (engine_below code (Nat.le_max_right few rounds)) step
    (Nat.le_refl loops) (index + 1) between) rest

theorem Settles.of_le {result : Except Failure Bool} {rounds loops : Nat}
    (ended : settle (engine code rounds) step loops index before = .ofResult result after) :
    ∃ many, settle (engine code many) step many index before = .ofResult result after :=
  ⟨max rounds loops, Outcome.eq_of_below (settle_below
    (engine_below code (Nat.le_max_left rounds loops)) step (Nat.le_max_right rounds loops) index
    before) ended⟩

end Settle

theorem ends_compare {left right : Sequence} {result : Except Failure Bool} :
    Ends code (Action.request (.compare left right)) before result after ↔
      Settles code (left.compareAt right) 0 before result after := by
  rw [ends_request]
  constructor
  · rintro ⟨_ | rounds, ended⟩
    · cases result <;> cases ended
    · exact ⟨rounds, rounds, ended⟩
  · rintro ⟨rounds, loops, ended⟩
    obtain ⟨many, ended⟩ := Settles.of_le ended
    exact ⟨many + 1, ended⟩

theorem ends_search {handle : Handle} {needle : Value} {result : Except Failure Bool} :
    Ends code (Action.request (.search handle needle)) before result after ↔
      Settles code (handle.searchAt needle) 0 before result after := by
  rw [ends_request]
  constructor
  · rintro ⟨_ | rounds, ended⟩
    · cases result <;> cases ended
    · exact ⟨rounds, rounds, ended⟩
  · rintro ⟨rounds, loops, ended⟩
    obtain ⟨many, ended⟩ := Settles.of_le ended
    exact ⟨many + 1, ended⟩

theorem ends_fill {shape : List Value} {content : Cycle Value}
    {result : Except Failure (List Value × Cycle Value)} :
    Ends code (Action.request (.fill shape content)) before result after ↔
      Ends code (Shape.fillSlots shape content) before result after := by
  rw [ends_request]
  constructor
  · rintro ⟨_ | rounds, ended⟩
    · cases result <;> cases ended
    · exact ⟨rounds, ended⟩
  · rintro ⟨rounds, ended⟩
    exact ⟨rounds + 1, ended⟩

end Machine

end Terse
