import Mathlib.Data.ENat.Lattice
import Terse.Proofs.Lazy.Reading
import Terse.Value.View

/-! How much of a lazy sequence is realized by what is asked of it. A sequence that can be pulled at any
time is known by its length; an action that asks sequences for elements draws from each as much as was
asked for and is there, and nothing beyond. Demands join place by place, so those of an action are the
joined demands of its parts. -/
namespace Terse

variable {σ : Type}

/-- How many elements a sequence has in all, and which they are where that is foreseen. -/
structure Prospect where
  length : ℕ∞
  element? : Nat → Option Value
  inside : ∀ {index v}, element? index = some v → (index : ℕ∞) < length

theorem Prospect.succ_le_length (prospect : Prospect) {index : Nat} {v : Value}
    (found : prospect.element? index = some v) : ((index + 1 : ℕ) : ℕ∞) ≤ prospect.length := by
  rw [Nat.cast_add_one, ENat.natCast_add_one_le_iff]
  exact prospect.inside found

abbrev Prospects := Nat → Option Prospect

/-- What is realized of the buffer is part of the prospect, and all of it if the buffer is done. -/
structure Buffer.Bears (prospect : Prospect) (buffer : Buffer) : Prop where
  within : (buffer.realized.size : ℕ∞) ≤ prospect.length
  foreseen : ∀ {index v w}, buffer.realized[index]? = some v →
    prospect.element? index = some w → v = w
  rests : buffer.state ≠ .running
  done : buffer.state = .done → (buffer.realized.size : ℕ∞) = prospect.length

/-- In good machines, pulls of these sequences give results, touch no buffer but their own, and leave
good machines. -/
structure Supply (code : Code σ) (prospects : Prospects) (good : Machine σ → Prop) : Prop where
  inside : ∀ {machine id prospect}, good machine → prospects id = some prospect →
    id < machine.store.buffers.size
  bears : ∀ {machine id prospect}, good machine → prospects id = some prospect →
    (machine.store.buffer id).Bears prospect
  pulled : ∀ {machine id prospect generator}, good machine → prospects id = some prospect →
    (machine.store.buffer id).state = .ready generator →
      ∃ result after, Machine.Ends code generator.next
          (machine.updateBuffer id (·.withState .running)) (.ok result) after ∧
        (∀ other < machine.store.buffers.size, other ≠ id →
          after.store.buffer other = machine.store.buffer other) ∧
        good (after.updateBuffer id (·.afterPull generator (.ok result)))

/-- From a sequence of this length, so many elements have been asked for. -/
structure Drawn (length demand : ℕ∞) (before after : Buffer) : Prop where
  size : (after.realized.size : ℕ∞) = max (before.realized.size : ℕ∞) (min demand length)
  done : after.state = .done ↔ before.state = .done ∨ length < demand

namespace Drawn

variable {length demand further : ℕ∞} {before between after : Buffer}

theorem of_le (within : (before.realized.size : ℕ∞) ≤ length)
    (enough : demand ≤ before.realized.size) : Drawn length demand before before where
  size := (max_eq_left ((min_le_left _ _).trans enough)).symm
  done := by
    have reached : ¬ length < demand := not_lt.mpr (enough.trans within)
    simp [reached]

theorem of_done (state : before.state = .done) (whole : (before.realized.size : ℕ∞) = length) :
    Drawn length demand before before where
  size := (max_eq_left ((min_le_right _ _).trans whole.ge)).symm
  done := by simp [state]

theorem trans (one : Drawn length demand before between) (two : Drawn length further between after) :
    Drawn length (max demand further) before after where
  size := by rw [two.size, one.size, max_assoc, min_max_distrib_right]
  done := by rw [two.done, one.done, or_assoc, lt_max_iff]

theorem of_produce {value : Value} {rest : Generator}
    (drawn : Drawn length demand (before.produce value rest) after)
    (asked : ((before.realized.size + 1 : ℕ) : ℕ∞) ≤ demand)
    (there : ((before.realized.size + 1 : ℕ) : ℕ∞) ≤ length) (more : before.state ≠ .done) :
    Drawn length demand before after where
  size := by
    have next : ((before.produce value rest).realized.size : ℕ∞) =
        ((before.realized.size + 1 : ℕ) : ℕ∞) := by
      rw [Buffer.produce, Array.size_push]
    have less : (before.realized.size : ℕ∞) ≤ ((before.realized.size + 1 : ℕ) : ℕ∞) :=
      Nat.cast_le.mpr (Nat.le_succ _)
    rw [drawn.size, next, max_eq_right (le_min asked there),
      max_eq_right (less.trans (le_min asked there))]
  done := by
    have ready : (before.produce value rest).state ≠ .done := by simp [Buffer.produce]
    simp [drawn.done, ready, more]

theorem congr_beyond (drawn : Drawn length demand before after) (beyond : length < demand)
    (beyond' : length < further) : Drawn length further before after where
  size := by rw [drawn.size, min_eq_right beyond.le, min_eq_right beyond'.le]
  done := by simp [drawn.done, beyond, beyond']

theorem size_of_le {count : Nat} (drawn : Drawn length count before after)
    (there : (count : ℕ∞) ≤ length) :
    after.realized.size = max before.realized.size count := by
  have cast : Monotone (Nat.cast : ℕ → ℕ∞) := Nat.mono_cast
  have size := drawn.size
  rwa [min_eq_left there, ← cast.map_max, Nat.cast_inj] at size

end Drawn

def DrawnEach (prospects : Prospects) (demand : Nat → ℕ∞) (before after : Machine σ) : Prop :=
  ∀ ⦃id prospect⦄, prospects id = some prospect →
    Drawn prospect.length (demand id) (before.store.buffer id) (after.store.buffer id)

/-- In every good machine, the action answers like this, leaves a good machine and draws so much. -/
def Draws {α : Type} (code : Code σ) (prospects : Prospects) (good : Machine σ → Prop)
    (action : Action σ α) (answers : α → Prop) (demand : Nat → ℕ∞) : Prop :=
  ∀ ⦃before⦄, good before → ∃ a after, Machine.Ends code action before (.ok a) after ∧ answers a ∧
    good after ∧ DrawnEach prospects demand before after

def asking (id : Nat) (count : ℕ∞) : Nat → ℕ∞ := fun other => if other = id then count else 0

theorem asking_self (id : Nat) (count : ℕ∞) : asking id count id = count := if_pos rfl

theorem asking_of_ne {id other : Nat} (ne : other ≠ id) (count : ℕ∞) : asking id count other = 0 :=
  if_neg ne

theorem asking_sup (id : Nat) (count more : ℕ∞) :
    asking id count ⊔ asking id more = asking id (max count more) := by
  funext other
  rw [Pi.sup_apply]
  by_cases same : other = id
  · subst same
    simp only [asking_self]
  · simp only [asking_of_ne same, max_self]

def Sequence.asking : Sequence → ℕ∞ → Nat → ℕ∞
  | .items _, _ => 0
  | .lazy handle, count => Terse.asking handle.buffer count

theorem Sequence.asking_sup (sequence : Sequence) (count more : ℕ∞) :
    sequence.asking count ⊔ sequence.asking more = sequence.asking (max count more) := by
  cases sequence with
  | items values => exact sup_idem _
  | lazy handle => exact Terse.asking_sup _ _ _

structure Prospect.Gives (prospect : Prospect) (index : Nat) (item : Option Value) : Prop where
  isSome : item.isSome ↔ (index : ℕ∞) < prospect.length
  foreseen : ∀ {v}, prospect.element? index = some v → item = some v

def Prospect.ofList (values : List Value) : Prospect where
  length := values.length
  element? index := values[index]?
  inside found := Nat.cast_lt.mpr (List.getElem?_eq_some_iff.mp found).1

inductive Sequence.Offers (prospects : Prospects) : Sequence → Prospect → Prop where
  | items (values : List Value) : Offers prospects (.items values) (.ofList values)
  | lazy {handle : Handle} {prospect : Prospect} : prospects handle.buffer = some prospect →
      Offers prospects (.lazy handle) prospect

namespace Draws

variable {α β : Type} {code : Code σ} {prospects : Prospects} {good : Machine σ → Prop}
  {action : Action σ α} {answers : α → Prop} {demand further : Nat → ℕ∞}

theorem nothing {a : α} (supply : Supply code prospects good) (right : answers a) :
    Draws code prospects good (pure a) answers 0 := by
  intro before here
  refine ⟨a, before, Machine.ends_pure.mpr ⟨rfl, rfl⟩, right, here, fun _ _ known => ?_⟩
  exact .of_le (supply.bears here known).within zero_le

theorem bind {f : α → Action σ β} {answers' : β → Prop}
    (first : Draws code prospects good action answers demand)
    (rest : ∀ a, answers a → Draws code prospects good (f a) answers' further) :
    Draws code prospects good (action >>= f) answers' (demand ⊔ further) := by
  intro before here
  obtain ⟨a, between, ended, right, here, drawn⟩ := first here
  obtain ⟨b, after, ended', right, here, drawn'⟩ := rest a right here
  exact ⟨b, after, Machine.ends_bind_ok.mpr ⟨a, between, ended, ended'⟩, right, here,
    fun _ _ known => (drawn known).trans (drawn' known)⟩

theorem map {f : α → Action σ β} {answers' : β → Prop}
    (first : Draws code prospects good action answers demand)
    (rest : ∀ a, answers a → Draws code prospects good (f a) answers' 0) :
    Draws code prospects good (action >>= f) answers' demand := by
  have both := first.bind rest
  rwa [show demand ⊔ 0 = demand from sup_eq_left.mpr fun _ => zero_le] at both

theorem congr (draws : Draws code prospects good action answers demand)
    (same : ∀ {id prospect}, prospects id = some prospect →
      demand id = further id ∨ prospect.length < demand id ∧ prospect.length < further id) :
    Draws code prospects good action answers further := by
  intro before here
  obtain ⟨a, after, ended, right, here, drawn⟩ := draws here
  refine ⟨a, after, ended, right, here, fun _ _ known => ?_⟩
  rcases same known with same | ⟨beyond, beyond'⟩
  · exact same ▸ drawn known
  · exact (drawn known).congr_beyond beyond beyond'

end Draws

theorem Buffer.Bears.drawn_nothing {prospect : Prospect} {buffer : Buffer}
    (bears : buffer.Bears prospect) : Drawn prospect.length 0 buffer buffer :=
  .of_le bears.within zero_le

theorem drawnEach_asking {prospects : Prospects} {id : Nat} {prospect : Prospect} {count : ℕ∞}
    {before after : Machine σ} (known : prospects id = some prospect)
    (own : Drawn prospect.length count (before.store.buffer id) (after.store.buffer id))
    (others : ∀ {other prospect}, other ≠ id → prospects other = some prospect →
      Drawn prospect.length 0 (before.store.buffer other) (after.store.buffer other)) :
    DrawnEach prospects (asking id count) before after := by
  intro other prospect' known'
  by_cases same : other = id
  · subst same
    obtain rfl := Option.some.inj (known.symm.trans known')
    rwa [asking_self]
  · rw [asking_of_ne same]
    exact others same known'

namespace Supply

open Machine

variable {code : Code σ} {prospects : Prospects} {good : Machine σ → Prop} {id : Nat}
  {prospect : Prospect} {before : Machine σ}

theorem drawn_rest (supply : Supply code prospects good) (here : good before)
    (known : prospects id = some prospect) {count : ℕ∞}
    (own : Drawn prospect.length count (before.store.buffer id) (before.store.buffer id)) :
    DrawnEach prospects (asking id count) before before :=
  drawnEach_asking known own fun _ known' => (supply.bears here known').drawn_nothing

theorem realize (supply : Supply code prospects good) (here : good before)
    (known : prospects id = some prospect) (count : Nat) :
    ∃ reached after, Ends code (Action.realize id (.upTo count)) before (.ok reached) after ∧
      good after ∧ DrawnEach prospects (asking id count) before after := by
  -- The induction is on the number of elements that are still missing.
  generalize missing : count - (before.store.buffer id).realized.size = rest
  induction rest using Nat.strongRecOn generalizing before with
  | ind rest ih =>
    have bears := supply.bears here known
    cases unmet : (Demand.upTo count).isMet (before.store.buffer id).realized.size with
    | true =>
      have enough : count ≤ (before.store.buffer id).realized.size := of_decide_eq_true unmet
      have own := Drawn.of_le bears.within (Nat.cast_le.mpr enough)
      exact ⟨true, before, .realize_met unmet, here, supply.drawn_rest here known own⟩
    | false =>
      have less : (before.store.buffer id).realized.size < count := by
        simpa [Demand.isMet] using unmet
      cases state : (before.store.buffer id).state with
      | running => exact absurd state bears.rests
      | done =>
        have own : Drawn prospect.length count _ _ := .of_done state (bears.done state)
        exact ⟨false, before, .realize_done unmet state, here, supply.drawn_rest here known own⟩
      | ready generator =>
        obtain ⟨result, between, pulled, kept, here'⟩ := supply.pulled here known state
        have kept {other : Nat} {prospect : Prospect} (ne : other ≠ id)
            (known : prospects other = some prospect) (f : Buffer → Buffer) :
            (between.updateBuffer id f).store.buffer other = before.store.buffer other :=
          (Store.buffer_update_of_ne ne _).trans (kept other (supply.inside here known) ne)
        have bears' := supply.bears here' known
        rw [pulled.buffer_settled state] at bears'
        cases result with
        | none =>
          have whole : ((before.store.buffer id).realized.size : ℕ∞) = prospect.length :=
            bears'.done rfl
          have beyond : prospect.length < count := whole ▸ Nat.cast_lt.mpr less
          have own : Drawn prospect.length count (before.store.buffer id)
              ((before.store.buffer id).withState .done) := by
            refine ⟨?_, iff_of_true rfl (.inr beyond)⟩
            rw [min_eq_right beyond.le, ← whole, max_self]
            rfl
          refine ⟨false, _, .realize_over unmet state pulled, here', drawnEach_asking known ?_ ?_⟩
          · rw [pulled.buffer_settled state]
            exact own
          · intro other _ ne known'
            rw [kept ne known']
            exact (supply.bears here known').drawn_nothing
        | some produced =>
          obtain ⟨value, next⟩ := produced
          have size : (before.store.buffer id).realized.size + 1 =
              ((before.store.buffer id).produce value next).realized.size :=
            (Array.size_push ..).symm
          have settled := pulled.buffer_settled state (·.produce value next)
          obtain ⟨reached, after, ended, here'', drawn⟩ := ih
            (count - ((before.store.buffer id).realized.size + 1)) (by omega) here'
            (by rw [pulled.buffer_settled state, size]; rfl)
          refine ⟨reached, after, .realize_more unmet state pulled ended, here'',
            drawnEach_asking known ?_ ?_⟩
          · have own := drawn known
            rw [asking_self, pulled.buffer_settled state] at own
            refine Drawn.of_produce own (Nat.cast_le.mpr less) ?_ (by simp [state])
            rw [size]
            exact bears'.within
          · intro other _ ne known'
            have others := drawn known'
            rwa [asking_of_ne ne, kept ne known'] at others

theorem get (supply : Supply code prospects good) {handle : Handle}
    (known : prospects handle.buffer = some prospect) (index : Nat) :
    Draws code prospects good (handle.get index) (prospect.Gives index)
      (asking handle.buffer (index + 1 : ℕ)) := by
  intro before here
  obtain ⟨reached, after, realized, here', drawn⟩ := supply.realize here known (index + 1)
  obtain ⟨item, ended⟩ := Ends.get realized
  obtain ⟨found, _⟩ := ended.get_item
  have bears := supply.bears here' known
  have own := (drawn known).size
  rw [asking_self] at own
  have isSome : item.isSome ↔ (index : ℕ∞) < prospect.length := by
    rw [found, Option.isSome_iff_ne_none, ne_eq, Array.getElem?_eq_none_iff, Nat.not_le,
      ← ENat.natCast_lt_natCast]
    constructor
    · intro below
      exact below.trans_le bears.within
    · intro inside
      have next : ((index + 1 : ℕ) : ℕ∞) ≤ prospect.length := by
        rwa [Nat.cast_add_one, ENat.natCast_add_one_le_iff]
      rw [own, min_eq_left next]
      exact lt_max_of_lt_right (Nat.cast_lt.mpr (Nat.lt_succ_self index))
  refine ⟨item, after, ended, ⟨isSome, fun {v} foreseen => ?_⟩, here', drawn⟩
  obtain ⟨w, rfl⟩ := Option.isSome_iff_exists.mp (isSome.mpr (prospect.inside foreseen))
  rw [bears.foreseen found.symm foreseen]

variable {sequence : Sequence}

theorem get_at (supply : Supply code prospects good) (offers : sequence.Offers prospects prospect)
    (index : Nat) : Draws code prospects good (sequence.get index) (prospect.Gives index)
      (sequence.asking (index + 1 : ℕ)) := by
  cases offers with
  | items values =>
    refine .nothing supply ⟨?_, fun foreseen => foreseen⟩
    simp [Prospect.ofList]
  | lazy known => exact supply.get known index

theorem isEmpty (supply : Supply code prospects good) (offers : sequence.Offers prospects prospect) :
    Draws code prospects good sequence.isEmpty (fun empty => empty = true ↔ prospect.length = 0)
      (sequence.asking 1) := by
  refine (supply.get_at offers 0).map fun first gives => .nothing supply ?_
  rw [← Option.not_isSome, Bool.not_eq_true', ← Bool.not_eq_true, gives.isSome, Nat.cast_zero,
    pos_iff_ne_zero, not_not]

theorem truth (supply : Supply code prospects good) {handle : Handle}
    (known : prospects handle.buffer = some prospect) :
    Draws code prospects good (Value.lazy handle).truth (fun truth => truth = true ↔ prospect.length ≠ 0)
      (asking handle.buffer 1) := by
  refine (supply.get known 0).map fun first gives => .nothing supply ?_
  rw [gives.isSome, Nat.cast_zero, pos_iff_ne_zero]

theorem unwrapped (supply : Supply code prospects good) {handle : Handle}
    (known : prospects handle.buffer = some prospect) :
    Draws code prospects good (Value.lazy handle).unwrapped (fun _ => True)
      (asking handle.buffer 2) := by
  by_cases empty : prospect.length = 0
  · have first : Draws code prospects good (Value.lazy handle).unwrapped (fun _ => True)
        (asking handle.buffer 1) := by
      refine (supply.get known 0).map fun item gives => ?_
      cases item with
      | none => exact .nothing supply trivial
      | some item => simpa [empty] using gives.isSome
    refine first.congr fun {id _} known' => ?_
    by_cases own : id = handle.buffer
    · subst own
      obtain rfl := Option.some.inj (known.symm.trans known')
      simp [asking_self, empty]
    · exact .inl (by rw [asking_of_ne own, asking_of_ne own])
  · have both : asking handle.buffer (0 + 1 : ℕ) ⊔ asking handle.buffer (1 + 1 : ℕ) =
        asking handle.buffer 2 := by
      rw [asking_sup]
      rfl
    rw [← both]
    refine (supply.get known 0).bind fun item gives => ?_
    cases item with
    | none => simpa [empty] using gives.isSome
    | some item =>
      refine (supply.get known 1).map fun item _ => ?_
      cases item <;> exact .nothing supply trivial

end Supply

end Terse
