import Terse.Proofs.Lazy.Demand
import Terse.Proofs.Lazy.Routine

namespace Terse

variable {σ : Type} {code : Code σ} {sources : List Sequence} {id : Nat} {store : Store}

open Machine

namespace Sequence

def elements (store : Store) : Sequence → List Value
  | .items values => values
  | .lazy handle => store.realized handle

theorem length_elements_lazy (handle : Handle) :
    ((Sequence.lazy handle).elements store).length = (store.buffer handle.buffer).realized.size :=
  Array.length_toList

def IsOver (store : Store) : Sequence → Prop
  | .items _ => True
  | .lazy handle => (store.buffer handle.buffer).state = .done

/-- If there is an element at this index, it is at hand. -/
def Told (store : Store) (index : Nat) (sequence : Sequence) : Prop :=
  index < (sequence.elements store).length ∨ sequence.IsOver store

end Sequence

namespace Store

def padded (store : Store) (sources : List Sequence) (index : Nat) : Value :=
  .list (sources.map fun source => (source.elements store)[index]?.getD (.ofInt 0))

def row? (store : Store) (sources : List Sequence) (index : Nat) : Option Value :=
  if ∃ source ∈ sources, index < (source.elements store).length then
    some (store.padded sources index)
  else none

theorem isSome_row? {index : Nat} : (store.row? sources index).isSome ↔
    ∃ source ∈ sources, index < (source.elements store).length := by
  rw [row?]
  split <;> simp_all

theorem row?_eq_none {index : Nat} : store.row? sources index = none ↔
    ∀ source ∈ sources, (source.elements store).length ≤ index := by
  rw [← Option.not_isSome_iff_eq_none, isSome_row?]
  simp

theorem row_of_cells (index : Nat) :
    let cells := sources.map fun source => (source.elements store)[index]?
    (if cells.all Option.isNone then none
      else some (Value.list (cells.map (·.getD (.ofInt 0))))) = store.row? sources index := by
  intro cells
  have missing : cells.all Option.isNone = true ↔
      ¬ ∃ source ∈ sources, index < (source.elements store).length := by
    simp [cells]
  rw [row?, if_congr missing rfl rfl, ite_not, padded]
  simp [cells, Function.comp_def]

theorem row?_congr {later : Store} {index : Nat}
    (same : ∀ source ∈ sources, (source.elements later)[index]? = (source.elements store)[index]?) :
    later.row? sources index = store.row? sources index := by
  rw [← row_of_cells, ← row_of_cells, List.map_congr_left same]

end Store

/-- What is done to the store has left the elements of a sequence in their places. -/
def Sequence.Kept (before after : Store) : Sequence → Prop
  | .items _ => True
  | .lazy handle =>
    (before.buffer handle.buffer).realized.toList <+: (after.buffer handle.buffer).realized.toList ∧
      ((before.buffer handle.buffer).state = .done →
        after.buffer handle.buffer = before.buffer handle.buffer)

namespace Sequence

variable {sequence : Sequence} {index : Nat} {before after : Store}

theorem Kept.elements (kept : sequence.Kept before after) (told : sequence.Told before index) :
    (sequence.elements after)[index]? = (sequence.elements before)[index]? := by
  cases sequence with
  | items values => rfl
  | lazy handle =>
    rcases told with here | finished
    · obtain ⟨more, grown⟩ := kept.1
      change (after.buffer handle.buffer).realized.toList[index]? = _
      rw [← grown]
      exact List.getElem?_append_left here
    · simp only [Sequence.elements, Store.realized, kept.2 finished]

theorem Kept.told (kept : sequence.Kept before after) (told : sequence.Told before index) :
    sequence.Told after index := by
  cases sequence with
  | items values => exact .inr trivial
  | lazy handle =>
    refine told.imp (fun here => Nat.lt_of_lt_of_le here kept.1.length_le) fun finished => ?_
    change (after.buffer handle.buffer).state = _
    rw [kept.2 finished]
    exact finished

end Sequence

theorem Machine.Ends.kept {α : Type} {action : Action σ α} {before after : Machine σ}
    {result : Except Failure α} (ended : Ends code action before result after) {source : Sequence}
    (inside : ∀ {handle}, source = .lazy handle → handle.buffer < before.store.buffers.size) :
    source.Kept before.store after.store := by
  cases source with
  | items values => trivial
  | lazy handle =>
    have keeps := (Step.ended ended).keeps (inside rfl)
    exact ⟨keeps.elements, keeps.done⟩

theorem Machine.Ends.get_told {source : Sequence} {index : Nat} {before after : Machine σ}
    {cell : Option Value} (ended : Ends code (source.get index) before (.ok cell) after) :
    cell = (source.elements after.store)[index]? ∧ source.Told after.store index := by
  cases source with
  | items values =>
    obtain ⟨same, rfl⟩ := ends_pure.mp ended
    exact ⟨Except.ok.inj same, .inr trivial⟩
  | lazy handle =>
    have ended : Ends code (handle.get index) before (.ok cell) after := ended
    obtain ⟨rfl, finished⟩ := ended.get_item
    refine ⟨Array.getElem?_toList.symm, ?_⟩
    cases found : (after.store.buffer handle.buffer).realized[index]? with
    | none => exact .inr (finished found)
    | some item => exact .inl (Array.getElem?_eq_some_iff.mp found).1

theorem Machine.Ends.cells_told {index : Nat} {before after : Machine σ} {cells : List (Option Value)}
    (ended : Ends code (sources.mapM (·.get index)) before (.ok cells) after)
    (inside : ∀ {handle}, .lazy handle ∈ sources → handle.buffer < before.store.buffers.size) :
    cells = sources.map (fun source => (source.elements after.store)[index]?) ∧
      ∀ source ∈ sources, source.Told after.store index := by
  induction sources generalizing before cells with
  | nil =>
    obtain ⟨same, rfl⟩ := ends_pure.mp ended
    exact ⟨Except.ok.inj same, nofun⟩
  | cons source sources ih =>
    rw [List.mapM_cons] at ended
    obtain ⟨cell, between, first, ended⟩ := ends_bind_ok.mp ended
    obtain ⟨others, last, rest, answered⟩ := ends_bind_ok.mp ended
    obtain ⟨same, rfl⟩ := ends_pure.mp answered
    obtain rfl := Except.ok.inj same
    obtain ⟨log, grows⟩ := first.grows
    have inside' {handle : Handle} (mem : .lazy handle ∈ source :: sources) :
        handle.buffer < between.store.buffers.size :=
      Nat.lt_of_lt_of_le (inside mem) grows.size_le
    obtain ⟨rfl, told⟩ := first.get_told
    obtain ⟨rfl, each⟩ := ih rest fun mem => inside' (List.mem_cons_of_mem _ mem)
    have kept : source.Kept between.store after.store :=
      rest.kept fun same => inside' (same ▸ List.mem_cons_self)
    rw [List.map_cons, kept.elements told]
    exact ⟨rfl, List.forall_mem_cons.mpr ⟨kept.told told, each⟩⟩

/-- The buffer holds the rows across the sources, and is done at the first index where no source has an
element. -/
structure RowsFilled (sources : List Sequence) (id : Nat) (store : Store) : Prop
    extends RowsRead sources id store where
  rows : ∀ i < (store.buffer id).realized.size,
    (store.buffer id).realized[i]? = store.row? sources i
  finished : (store.buffer id).state = .done →
    store.row? sources (store.buffer id).realized.size = none

namespace RowsFilled

theorem told (filled : RowsFilled sources id store) {i : Nat}
    (inside : i < (store.buffer id).realized.size) : ∀ source ∈ sources, source.Told store i := by
  intro source mem
  cases source with
  | items values => exact .inr trivial
  | lazy handle =>
    refine (filled.read mem).imp (fun enough => ?_) fun finished => finished
    simpa [Sequence.elements, Store.realized] using Nat.lt_of_lt_of_le inside enough

theorem isOver (filled : RowsFilled sources id store) (state : (store.buffer id).state = .done) :
    ∀ source ∈ sources, source.IsOver store := by
  intro source mem
  cases source with
  | items values => trivial
  | lazy handle => exact filled.done state mem

theorem frame {later : Store} (filled : RowsFilled sources id store)
    (read : RowsRead sources id later)
    (own : (later.buffer id).realized = (store.buffer id).realized)
    (finished : (later.buffer id).state = .done → (store.buffer id).state = .done)
    (kept : ∀ source ∈ sources, source.Kept store later) : RowsFilled sources id later := by
  have same {i : Nat} (told : ∀ source ∈ sources, source.Told store i) :
      later.row? sources i = store.row? sources i :=
    Store.row?_congr fun source mem => (kept source mem).elements (told source mem)
  refine ⟨read, fun i inside => ?_, fun state => ?_⟩
  · rw [own] at inside ⊢
    rw [same (filled.told inside)]
    exact filled.rows i inside
  · have state := finished state
    rw [own, same fun source mem => .inr (filled.isOver state source mem)]
    exact filled.finished state

theorem begun (filled : RowsFilled sources id store) {pulled : Nat} {generator : Generator}
    (state : (store.buffer pulled).state = .ready generator) :
    RowsFilled sources id (store.update pulled (·.withState .running)) := by
  have inside : pulled < store.buffers.size := Store.lt_size_of_state_ne_done (by simp [state])
  have realized (other : Nat) :
      ((store.update pulled (·.withState .running)).buffer other).realized =
        (store.buffer other).realized := by
    by_cases same : other = pulled
    · subst same
      rw [Store.buffer_update_self inside]
      rfl
    · rw [Store.buffer_update_of_ne same]
  have resting {other : Nat} (ne : (store.buffer other).state = .done) :
      (store.update pulled (·.withState .running)).buffer other = store.buffer other := by
    refine Store.buffer_update_of_ne ?_ _
    rintro rfl
    rw [state] at ne
    cases ne
  refine filled.frame (filled.toRowsRead.begun state) (realized id) (fun finished => ?_) ?_
  · by_cases same : id = pulled
    · subst same
      rw [Store.buffer_update_self inside] at finished
      cases finished
    · rwa [Store.buffer_update_of_ne same] at finished
  · intro source mem
    cases source with
    | items values => trivial
    | lazy handle => exact ⟨by rw [realized], resting⟩

theorem add (filled : RowsFilled sources id store) (generator : Generator) :
    RowsFilled sources id (store.add generator).2 := by
  have own := Store.buffer_add_of_lt filled.inside generator
  refine filled.frame (filled.toRowsRead.add generator) (by rw [own]) (fun state => own ▸ state) ?_
  intro source mem
  cases source with
  | items values => trivial
  | lazy handle =>
    have same := Store.buffer_add_of_lt (filled.source_inside mem) generator
    exact ⟨by rw [same], fun _ => same⟩

theorem settled {pulled : Nat} {generator : Generator}
    {result : Except Failure (Option (Value × Generator))} (filled : RowsFilled sources id store)
    (read : RowsRead sources id (store.update pulled (·.afterPull generator result)))
    (ne : pulled ≠ id) (running : (store.buffer pulled).state = .running) :
    RowsFilled sources id (store.update pulled (·.afterPull generator result)) := by
  have own : (store.update pulled (·.afterPull generator result)).buffer id = store.buffer id :=
    Store.buffer_update_of_ne ne.symm _
  refine filled.frame read (by rw [own]) (fun state => own ▸ state) fun source mem => ?_
  cases source with
  | items values => trivial
  | lazy handle =>
    by_cases same : handle.buffer = pulled
    · subst same
      refine ⟨?_, fun finished => ?_⟩
      · rw [Store.buffer_update_self (filled.source_inside mem),
          Buffer.afterPull_realized generator handle.buffer]
        exact List.prefix_append _ _
      · rw [running] at finished
        cases finished
    · have same : (store.update pulled (·.afterPull generator result)).buffer handle.buffer =
          store.buffer handle.buffer := Store.buffer_update_of_ne same _
      exact ⟨by rw [same], fun _ => same⟩

theorem update_self (filled : RowsFilled sources id store) {f : Buffer → Buffer}
    (read : RowsRead sources id (store.update id f))
    (rows : ∀ i < (f (store.buffer id)).realized.size,
      (f (store.buffer id)).realized[i]? = store.row? sources i)
    (finished : (f (store.buffer id)).state = .done →
      store.row? sources (f (store.buffer id)).realized.size = none) :
    RowsFilled sources id (store.update id f) := by
  have own := Store.buffer_update_self filled.inside f
  have same (i : Nat) : (store.update id f).row? sources i = store.row? sources i := by
    refine Store.row?_congr fun source mem => ?_
    cases source with
    | items values => rfl
    | lazy handle =>
      have ne := Nat.ne_of_lt (filled.older mem)
      simp only [Sequence.elements, Store.realized, Store.buffer_update_of_ne ne]
  refine ⟨read, fun i inside => ?_, fun state => ?_⟩
  · rw [own] at inside ⊢
    rw [same]
    exact rows i inside
  · rw [own] at state ⊢
    rw [same]
    exact finished state

/-- A pull of the rows gives the next one, or finds that there is none. -/
theorem pulled {before after : Machine σ} {index : Nat}
    {result : Except Failure (Option (Value × Generator))}
    (filled : RowsFilled sources id after.store)
    (read : RowsRead sources id (after.store.update id (·.afterPull (.zip sources index) result)))
    (inside : ∀ {handle}, .lazy handle ∈ sources → handle.buffer < before.store.buffers.size)
    (ended : Ends code (Generator.zip sources index).next before result after)
    (size : (after.store.buffer id).realized.size = index) :
    RowsFilled sources id (after.store.update id (·.afterPull (.zip sources index) result)) := by
  rcases ends_bind.mp ended with ⟨cells, between, reads, answered⟩ | ⟨e, _, rfl⟩
  · obtain ⟨rfl, rfl⟩ := ends_pure_ite.mp answered
    have row : (if cells.all Option.isNone then none else
        some (Value.list (cells.map (·.getD (.ofInt 0))))) = after.store.row? sources index :=
      (reads.cells_told inside).1 ▸ Store.row_of_cells index
    cases missing : cells.all Option.isNone with
    | true =>
      simp only [missing, if_true] at row read ⊢
      exact filled.update_self read filled.rows fun _ => by rw [row, ← size]; rfl
    | false =>
      simp only [missing, Bool.false_eq_true, if_false] at row read ⊢
      refine filled.update_self read (fun i lt => ?_) nofun
      change i < (Array.push _ _).size at lt
      change (Array.push _ _)[i]? = _
      rw [Array.size_push] at lt
      rcases Nat.lt_or_eq_of_le (Nat.le_of_lt_succ lt) with before | rfl
      · rw [← filled.rows i before, Array.getElem?_push_lt before, Array.getElem?_eq_getElem before]
      · rw [Array.getElem?_push_size, size, ← row]
  · exact filled.update_self read filled.rows nofun

end RowsFilled

theorem filled_law (code : Code σ) (sources : List Sequence) (id : Nat) :
    RunLaw code fun before _ after =>
      RowsFilled sources id before.store → RowsFilled sources id after.store where
  rest _ filled := filled
  append one two filled := two (one filled)
  called _ _ law filled := law filled
  suspended _ generator filled := filled.add generator
  sessionSet _ _ filled := filled
  hostSet _ _ filled := filled
  pulled {_} within {other generator before result after} state ended filled := by
    have begun := filled.begun state
    have filled' : RowsFilled sources id after.store := within ended begun
    obtain ⟨_, read⟩ := (rows_law code sources id).of_pull state ⟨_, ended⟩
    obtain ⟨inside, rests⟩ := Ends.rests state ⟨_, ended⟩
    have read := read filled.toRowsRead
    by_cases own : other = id
    · subst own
      obtain rfl := filled.ready state
      exact filled'.pulled read begun.source_inside ⟨_, ended⟩ (by rw [rests]; rfl)
    · exact filled'.settled read own (by rw [rests]; rfl)

theorem Machine.Ends.filled {α : Type} {action : Action σ α} {before after : Machine σ}
    {result : Except Failure α} (ended : Ends code action before result after)
    (filled : RowsFilled sources id before.store) : RowsFilled sources id after.store := by
  obtain ⟨log, logged⟩ := ended.logs
  exact (filled_law code sources id).of_logs logged filled

theorem Machine.Reaches.filled {before after : Machine σ} (reaches : Reaches code before after)
    (filled : RowsFilled sources id before.store) : RowsFilled sources id after.store := by
  induction reaches with
  | refl => exact filled
  | tail _ step ih =>
    cases step with
    | ended ended => exact ended.filled ih
    | begun state => exact ih.begun state

theorem rowsFilled_zip {start made : Machine σ} {zip : Handle}
    (built : Ends code (Handle.zip sources) start (.ok zip) made)
    (inside : ∀ {handle}, .lazy handle ∈ sources → handle.buffer < start.store.buffers.size) :
    RowsFilled sources zip.buffer made.store := by
  have read := rowsRead_zip built inside
  obtain ⟨same, rfl⟩ := ends_suspend.mp built
  obtain rfl := Except.ok.inj same
  have fresh := Store.buffer_add_self start.store (.zip sources 0)
  refine ⟨read, ?_, ?_⟩
  · rw [fresh]
    exact nofun
  · rw [fresh]
    exact nofun

def Value.entry? (j : Nat) : Value → Option Value
  | .list entries => entries[j]?
  | _ => none

/-- The rows that a buffer holds are columns of elements of the sources, and zeros below. -/
structure Columns (sources : List Sequence) (id : Nat) (store : Store) : Prop where
  rows : ∀ i < (store.buffer id).realized.size,
    (store.buffer id).realized[i]? = some (store.padded sources i)
  present : ∀ i < (store.buffer id).realized.size, ∃ source ∈ sources,
    i < (source.elements store).length
  /-- A zero stands for a missing element only where the source has ended. -/
  told : ∀ i < (store.buffer id).realized.size, ∀ source ∈ sources, source.Told store i
  column : ∀ {j source}, sources[j]? = some source →
    ((store.realized ⟨id, 0⟩).map (Value.entry? j)).take (source.elements store).length =
      ((source.elements store).take (store.buffer id).realized.size).map some
  longest : (store.buffer id).state = .done →
    (∀ source ∈ sources, source.IsOver store ∧
      (source.elements store).length ≤ (store.buffer id).realized.size) ∧
    ((store.buffer id).realized.size = 0 ∨ ∃ source ∈ sources,
      (source.elements store).length = (store.buffer id).realized.size)

namespace RowsFilled

theorem row (filled : RowsFilled sources id store) {i : Nat}
    (inside : i < (store.buffer id).realized.size) :
    (∃ source ∈ sources, i < (source.elements store).length) ∧
      (store.buffer id).realized[i]? = some (store.padded sources i) := by
  have here := filled.rows i inside
  rw [Store.row?] at here
  split at here
  case isTrue present => exact ⟨present, here⟩
  case isFalse =>
    rw [Array.getElem?_eq_getElem inside] at here
    cases here

theorem realized_eq (filled : RowsFilled sources id store) {handle : Handle}
    (same : handle.buffer = id) :
    store.realized handle =
      (List.range (store.buffer id).realized.size).map (store.padded sources) := by
  subst same
  refine List.ext_getElem? fun i => ?_
  rw [Store.realized, Array.getElem?_toList, List.getElem?_map]
  by_cases inside : i < (store.buffer handle.buffer).realized.size
  · rw [(filled.row inside).2, List.getElem?_range inside]
    rfl
  · rw [Array.getElem?_eq_none (Nat.le_of_not_lt inside),
      List.getElem?_eq_none (by simpa using inside)]
    rfl

theorem columns (filled : RowsFilled sources id store) : Columns sources id store where
  rows i inside := (filled.row inside).2
  present i inside := (filled.row inside).1
  told i inside := filled.told inside
  column {j source} found := by
    refine List.ext_getElem? fun i => ?_
    simp only [Store.realized, List.getElem?_take, List.getElem?_map, Array.getElem?_toList]
    by_cases inside : i < (store.buffer id).realized.size
    · rw [(filled.row inside).2, if_pos inside]
      split
      case isTrue there =>
        simp [Store.padded, Value.entry?, found, List.getElem?_eq_getElem there]
      case isFalse missing => simp [List.getElem?_eq_none (Nat.le_of_not_lt missing)]
    · simp [inside]
  longest state := by
    have finished := Store.row?_eq_none.mp (filled.finished state)
    refine ⟨fun source mem => ⟨filled.isOver state source mem, finished source mem⟩, ?_⟩
    rcases Nat.eq_zero_or_pos (store.buffer id).realized.size with none_there | positive
    · exact .inl none_there
    · obtain ⟨source, mem, reaches⟩ := (filled.row (Nat.sub_lt positive Nat.one_pos)).1
      have le := finished source mem
      exact .inr ⟨source, mem, by omega⟩

end RowsFilled

/-! Reading rows, if no pull of a source fails. -/

/-- In good machines the sources can be pulled: each pull gives a result and leaves a good machine. A
machine is good or not whatever becomes of the rows, so no pull of a source needs them. -/
structure Unfailing (code : Code σ) (sources : List Sequence) (id : Nat)
    (good : Machine σ → Prop) : Prop where
  idle : ∀ {machine handle}, good machine → .lazy handle ∈ sources →
    (machine.store.buffer handle.buffer).state ≠ .running
  pulled : ∀ {machine handle generator}, good machine → .lazy handle ∈ sources →
    (machine.store.buffer handle.buffer).state = .ready generator →
      ∃ result after, Ends code generator.next
          (machine.updateBuffer handle.buffer (·.withState .running)) (.ok result) after ∧
        good (after.updateBuffer handle.buffer (·.afterPull generator (.ok result)))
  apart : ∀ {machine} f, good machine → good (machine.updateBuffer id f)

/-- In good machines, the sources have this many elements in all. -/
def Lasting (sources : List Sequence) (good : Machine σ → Prop) (lengths : Nat → ℕ∞) : Prop :=
  ∀ {machine handle}, good machine → .lazy handle ∈ sources →
    ((machine.store.buffer handle.buffer).realized.size : ℕ∞) ≤ lengths handle.buffer ∧
      ((machine.store.buffer handle.buffer).state = .done →
        ((machine.store.buffer handle.buffer).realized.size : ℕ∞) = lengths handle.buffer)

def Sequence.extent (lengths : Nat → ℕ∞) : Sequence → ℕ∞
  | .items values => values.length
  | .lazy handle => lengths handle.buffer

noncomputable def greatest (lengths : Nat → ℕ∞) : List Sequence → ℕ∞
  | [] => 0
  | source :: sources => max (source.extent lengths) (greatest lengths sources)

theorem lt_greatest_iff {lengths : Nat → ℕ∞} {index : Nat} :
    (index : ℕ∞) < greatest lengths sources ↔
      ∃ source ∈ sources, (index : ℕ∞) < source.extent lengths := by
  induction sources with
  | nil => simp [greatest]
  | cons source sources ih => simp [greatest, ih]

namespace Lasting

variable {good : Machine σ → Prop} {lengths : Nat → ℕ∞} {machine : Machine σ} {source : Sequence}

theorem length_le (lasting : Lasting sources good lengths) (here : good machine)
    (mem : source ∈ sources) :
    ((source.elements machine.store).length : ℕ∞) ≤ source.extent lengths := by
  cases source with
  | items values => exact le_rfl
  | lazy handle =>
    rw [Sequence.length_elements_lazy]
    exact (lasting here mem).1

theorem lt_iff (lasting : Lasting sources good lengths) (here : good machine)
    (mem : source ∈ sources) {index : Nat} (told : source.Told machine.store index) :
    index < (source.elements machine.store).length ↔ (index : ℕ∞) < source.extent lengths := by
  rw [← ENat.natCast_lt_natCast]
  refine ⟨fun inside => inside.trans_le (lasting.length_le here mem), fun inside => ?_⟩
  rcases told with there | finished
  · exact Nat.cast_lt.mpr there
  · cases source with
    | items values => exact inside
    | lazy handle =>
      rw [Sequence.length_elements_lazy, (lasting here mem).2 finished]
      exact inside

end Lasting

/-- Whoever asks for a row is given the elements that the sources have there, zeros for the others.
If the sources have certain lengths, the rows have the greatest of these. -/
structure Machine.GivesRows (code : Code σ) (sources : List Sequence) (id : Nat)
    (good : Machine σ → Prop) (machine : Machine σ) : Prop where
  get : ∀ {reader : Handle}, reader.buffer = id → ∀ i, ∃ after,
    Ends code (reader.get i) machine (.ok (after.store.row? sources i)) after ∧ good after ∧
      ∀ source ∈ sources, source.Told after.store i
  next : ∀ {reader : Handle}, reader.buffer = id → ∃ after, Ends code reader.next machine
    (.ok (after.store.row? sources reader.cursor,
      if (after.store.row? sources reader.cursor).isSome
      then { reader with cursor := reader.cursor + 1 } else reader)) after ∧ good after
  extent : ∀ {lengths}, Lasting sources good lengths → ∀ {reader : Handle}, reader.buffer = id →
    ∀ i : Nat, ∃ row after, Ends code (reader.get i) machine (.ok row) after ∧
      (row.isSome ↔ (i : ℕ∞) < greatest lengths sources)
  length : ∀ {lengths}, Lasting sources good lengths → ∀ {reader : Handle}, reader.buffer = id →
    ∀ {count : Nat}, greatest lengths sources = count →
      ∃ after, Ends code reader.length machine (.ok count) after
  force : ∀ {lengths}, Lasting sources good lengths → ∀ {reader : Handle}, reader.buffer = id →
    ∀ {count : Nat}, greatest lengths sources = count →
      ∃ after, Ends code reader.force machine
        (.ok ((List.range count).map (after.store.padded sources))) after

namespace Unfailing

variable {good : Machine σ → Prop} {before : Machine σ}

theorem get (unfailing : Unfailing code sources id good) {source : Sequence}
    (mem : source ∈ sources) (here : good before) (index : Nat) :
    ∃ cell after, Ends code (source.get index) before (.ok cell) after ∧ good after := by
  cases source with
  | items values => exact ⟨_, before, ends_pure.mpr ⟨rfl, rfl⟩, here⟩
  | lazy handle =>
    have realizes : ∃ reached after, Ends code (Action.realize handle.buffer (.upTo (index + 1)))
        before (.ok reached) after ∧ good after := by
      refine realize_ends_within (index + 1) (unfailing.idle · mem) (fun here unmet state => ?_) here
      obtain ⟨result, after, ended, here'⟩ := unfailing.pulled here mem state
      exact ⟨result, after, ended, fun _ => by simpa [Demand.isMet] using unmet, here'⟩
    obtain ⟨reached, after, realized, here'⟩ := realizes
    obtain ⟨item, ended⟩ := Ends.get realized
    exact ⟨item, after, ended, here'⟩

theorem cells (unfailing : Unfailing code sources id good) (here : good before) (index : Nat) :
    ∃ cells after, Ends code (sources.mapM (·.get index)) before (.ok cells) after ∧ good after := by
  have each (some_of : List Sequence) (sub : some_of ⊆ sources) {before : Machine σ}
      (here : good before) : ∃ cells after,
        Ends code (some_of.mapM (·.get index)) before (.ok cells) after ∧ good after := by
    induction some_of generalizing before with
    | nil => exact ⟨[], before, ends_pure.mpr ⟨rfl, rfl⟩, here⟩
    | cons source others ih =>
      obtain ⟨mem, sub⟩ := List.cons_subset.mp sub
      obtain ⟨cell, between, first, here⟩ := unfailing.get mem here index
      obtain ⟨cells, after, rest, here⟩ := ih sub here
      refine ⟨cell :: cells, after, ?_, here⟩
      rw [List.mapM_cons]
      exact ends_bind_ok.mpr ⟨cell, between, first,
        ends_bind_ok.mpr ⟨cells, after, rest, ends_pure.mpr ⟨rfl, rfl⟩⟩⟩
  exact each sources (List.Subset.refl _) here

theorem realize (unfailing : Unfailing code sources id good) {demand : Demand} (bound : Nat)
    (bounded : ∀ {machine : Machine σ}, good machine → RowsFilled sources id machine.store →
      ∀ size, demand.isMet size = false → size < (machine.store.buffer id).realized.size →
        size < bound)
    (here : good before) (filled : RowsFilled sources id before.store)
    (rests : (before.store.buffer id).state ≠ .running) :
    ∃ reached after, Ends code (Action.realize id demand) before (.ok reached) after ∧ good after := by
  have realizes : ∃ reached after, Ends code (Action.realize id demand) before (.ok reached) after ∧
      good after ∧ RowsFilled sources id after.store ∧ (after.store.buffer id).state ≠ .running := by
    refine realize_ends_within bound (fun fit => fit.2.2) ?_ ⟨here, filled, rests⟩
    rintro machine generator ⟨here, filled, _⟩ unmet state
    obtain rfl := filled.ready state
    obtain ⟨cells, after, read, here'⟩ := unfailing.cells (unfailing.apart (·.withState .running) here)
      (machine.store.buffer id).realized.size
    obtain ⟨result, pulled⟩ : ∃ result, Ends code
        (Generator.zip sources (machine.store.buffer id).realized.size).next
        (machine.updateBuffer id (·.withState .running)) (.ok result) after :=
      ⟨_, ends_bind_ok.mpr ⟨cells, after, read, ends_pure_ite.mpr ⟨rfl, rfl⟩⟩⟩
    obtain ⟨_, filled'⟩ := (filled_law code sources id).of_pull state pulled
    have settled := pulled.buffer_settled state
    refine ⟨result, after, pulled, fun there => ?_, unfailing.apart _ here', filled' filled, ?_⟩
    · obtain ⟨produced, rfl⟩ := Option.isSome_iff_exists.mp there
      refine bounded (unfailing.apart _ here') (filled' filled) _ unmet ?_
      rw [settled]
      exact Nat.lt_of_lt_of_eq (Nat.lt_succ_self _) (Array.size_push ..).symm
    · rw [settled]
      exact Buffer.afterPull_state_ne_running _ _ _
  obtain ⟨reached, after, ended, here', _⟩ := realizes
  exact ⟨reached, after, ended, here'⟩

theorem realize_all (unfailing : Unfailing code sources id good) {lengths : Nat → ℕ∞}
    (lasting : Lasting sources good lengths) {count : Nat}
    (most : greatest lengths sources = count) (here : good before)
    (filled : RowsFilled sources id before.store)
    (rests : (before.store.buffer id).state ≠ .running) :
    ∃ reached after, Ends code (Action.realize id .all) before (.ok reached) after ∧ good after := by
  refine unfailing.realize count (fun {machine} here filled size _ inside => ?_) here filled rests
  obtain ⟨⟨source, mem, there⟩, _⟩ := filled.row inside
  rw [← ENat.natCast_lt_natCast, ← most, lt_greatest_iff]
  exact ⟨source, mem, (lasting.lt_iff here mem (.inl there)).mp there⟩

end Unfailing

namespace RowsFilled

variable {good : Machine σ → Prop} {lengths : Nat → ℕ∞} {machine : Machine σ}

theorem isSome_row?_iff (lasting : Lasting sources good lengths) (here : good machine) {i : Nat}
    (told : ∀ source ∈ sources, source.Told machine.store i) :
    (machine.store.row? sources i).isSome ↔ (i : ℕ∞) < greatest lengths sources := by
  rw [Store.isSome_row?, lt_greatest_iff]
  constructor
  · rintro ⟨source, mem, there⟩
    exact ⟨source, mem, (lasting.lt_iff here mem (told source mem)).mp there⟩
  · rintro ⟨source, mem, below⟩
    exact ⟨source, mem, (lasting.lt_iff here mem (told source mem)).mpr below⟩

theorem size_of_done (filled : RowsFilled sources id machine.store)
    (lasting : Lasting sources good lengths) (here : good machine)
    (state : (machine.store.buffer id).state = .done) {count : Nat}
    (most : greatest lengths sources = count) :
    (machine.store.buffer id).realized.size = count := by
  have told (i : Nat) : ∀ source ∈ sources, source.Told machine.store i :=
    fun source mem => .inr (filled.isOver state source mem)
  have isSome_iff (i : Nat) : (machine.store.row? sources i).isSome ↔ i < count := by
    rw [isSome_row?_iff lasting here (told i), most, ENat.natCast_lt_natCast]
  refine Nat.le_antisymm (Nat.le_of_not_lt fun more => ?_) (Nat.le_of_not_lt fun less => ?_)
  · have there := Store.isSome_row?.mpr (filled.row more).1
    exact absurd ((isSome_iff count).mp there) (Nat.lt_irrefl count)
  · have there := (isSome_iff _).mpr less
    rw [filled.finished state] at there
    cases there

theorem row_of_read (filled : RowsFilled sources id store) {i : Nat}
    (atEnd : (store.buffer id).realized[i]? = none → (store.buffer id).state = .done) :
    (store.buffer id).realized[i]? = store.row? sources i ∧
      ∀ source ∈ sources, source.Told store i := by
  cases found : (store.buffer id).realized[i]? with
  | none =>
    have state := atEnd found
    have behind := Array.getElem?_eq_none_iff.mp found
    have finished := Store.row?_eq_none.mp (filled.finished state)
    refine ⟨(Store.row?_eq_none.mpr fun source mem => (finished source mem).trans behind).symm, ?_⟩
    exact fun source mem => .inr (filled.isOver state source mem)
  | some row =>
    have inside := (Array.getElem?_eq_some_iff.mp found).1
    exact ⟨found ▸ filled.rows i inside, filled.told inside⟩

end RowsFilled

theorem Unfailing.givesRows {good : Machine σ → Prop} {machine : Machine σ}
    (unfailing : Unfailing code sources id good) (here : good machine)
    (filled : RowsFilled sources id machine.store)
    (rests : (machine.store.buffer id).state ≠ .running) :
    machine.GivesRows code sources id good := by
  have get {reader : Handle} (same : reader.buffer = id) (i : Nat) : ∃ after,
      Ends code (reader.get i) machine (.ok (after.store.row? sources i)) after ∧ good after ∧
        ∀ source ∈ sources, source.Told after.store i := by
    subst same
    have realizes : ∃ reached after, Ends code (Action.realize reader.buffer (.upTo (i + 1)))
        machine (.ok reached) after ∧ good after := by
      refine unfailing.realize (i + 1) (fun _ _ size unmet _ => ?_) here filled rests
      simpa [Demand.isMet] using unmet
    obtain ⟨reached, after, realized, here'⟩ := realizes
    obtain ⟨item, ended⟩ := Ends.get realized
    obtain ⟨rfl, atEnd⟩ := ended.get_item
    obtain ⟨row, told⟩ := (ended.filled filled).row_of_read atEnd
    exact ⟨after, row ▸ ended, here', told⟩
  refine ⟨get, fun same => ?_, fun lasting _ same i => ?_,
    fun lasting reader same count most => ?_, fun lasting reader same count most => ?_⟩
  · obtain ⟨after, ended, here', _⟩ := get same _
    exact ⟨after, ended.next, here'⟩
  · obtain ⟨after, ended, here', told⟩ := get same i
    exact ⟨_, after, ended, RowsFilled.isSome_row?_iff lasting here' told⟩
  · subst same
    obtain ⟨reached, after, realized, here'⟩ :=
      unfailing.realize_all lasting most here filled rests
    have ended := Ends.length realized
    have size := (ended.filled filled).size_of_done lasting here' ended.length_size.2 most
    exact ⟨after, size ▸ ended⟩
  · subst same
    obtain ⟨reached, after, realized, here'⟩ :=
      unfailing.realize_all lasting most here filled rests
    have ended := Ends.force realized
    have filled' := ended.filled filled
    have size := filled'.size_of_done lasting here' ended.force_items.2 most
    rw [filled'.realized_eq rfl, size] at ended
    exact ⟨after, ended⟩

/-- Zipping pads every column and loses nothing. Whatever is done after sequences have been zipped,
also with pulls that fail, the rows that there are have one entry for each source: its element, or zero
where it has ended before; at least one source has an element there, whichever it is; each column is
its source, down to its length; and at the end there are as many rows as the longest source has
elements. Where no pull of a source fails, each row can be read, as far as there are sources with
elements, through any handle and whatever has been read before of it or of the sources. -/
theorem zip_pads_columns {start made now : Machine σ} {zip : Handle}
    (inside : ∀ {handle}, .lazy handle ∈ sources → handle.buffer < start.store.buffers.size)
    (built : Ends code (Handle.zip sources) start (.ok zip) made) (reaches : Reaches code made now) :
    Columns sources zip.buffer now.store ∧
    ∀ {good : Machine σ → Prop}, Unfailing code sources zip.buffer good → good now →
      (now.store.buffer zip.buffer).state ≠ .running →
        now.GivesRows code sources zip.buffer good := by
  have filled := reaches.filled (rowsFilled_zip built inside)
  exact ⟨filled.columns, fun unfailing here rests => unfailing.givesRows here filled rests⟩

namespace Supply

variable {prospects : Prospects} {good : Machine σ → Prop}

theorem unfailing (supply : Supply code prospects good)
    (apart : ∀ {machine} f, good machine → good (machine.updateBuffer id f))
    (known : ∀ {handle}, .lazy handle ∈ sources → (prospects handle.buffer).isSome) :
    Unfailing code sources id good where
  idle here mem := by
    obtain ⟨prospect, known⟩ := Option.isSome_iff_exists.mp (known mem)
    exact (supply.bears here known).rests
  pulled here mem state := by
    obtain ⟨prospect, known⟩ := Option.isSome_iff_exists.mp (known mem)
    obtain ⟨result, after, ended, _, here⟩ := supply.pulled here known state
    exact ⟨result, after, ended, here⟩
  apart := apart

theorem lasting (supply : Supply code prospects good)
    (known : ∀ {handle}, .lazy handle ∈ sources → (prospects handle.buffer).isSome) :
    Lasting sources good fun id => ((prospects id).map Prospect.length).getD 0 := by
  intro machine handle here mem
  obtain ⟨prospect, known⟩ := Option.isSome_iff_exists.mp (known mem)
  have bears := supply.bears here known
  simp only [known, Option.map_some, Option.getD_some]
  exact ⟨bears.within, bears.done⟩

end Supply

def unevenSources : List Sequence :=
  [.items [.ofInt 0, .list []], .lazy ⟨0, 0⟩, .lazy ⟨0, 7⟩]

/-- There are three rows, although the first source has two elements, both of them falsy. -/
theorem zip_pads_columns_uneven :
    Unfailing streamCode unevenSources 3 (AllScripted streamCode integerOutlook) ∧
    ∃ made after later,
      Ends streamCode (Handle.zip unevenSources) streams (.ok ⟨3, 0⟩) made ∧
      AllScripted streamCode integerOutlook made ∧
      Ends streamCode (Handle.force ⟨3, 4⟩) made
        (.ok [.list [.ofInt 0, .ofInt 0, .ofInt 0], .list [.list [], .ofInt 1, .ofInt 1],
          .list [.ofInt 0, .ofInt 2, .ofInt 2]]) after ∧
      Columns unevenSources 3 after.store ∧
      Ends streamCode (Handle.length ⟨3, 0⟩) made (.ok 3) later := by
  have runs : ∃ made after, Ends streamCode (Handle.zip unevenSources) streams (.ok ⟨3, 0⟩) made ∧
      Ends streamCode (Handle.force ⟨3, 4⟩) made
        (.ok [.list [.ofInt 0, .ofInt 0, .ofInt 0], .list [.list [], .ofInt 1, .ofInt 1],
          .list [.ofInt 0, .ofInt 2, .ofInt 2]]) after := ⟨_, _, ⟨9, rfl⟩, 9, rfl⟩
  obtain ⟨made, after, built, forced⟩ := runs
  have known {handle : Handle} (mem : .lazy handle ∈ unevenSources) :
      ((integerOutlook handle.buffer).map Course.prospect).isSome := by
    obtain rfl | rfl : handle = ⟨0, 0⟩ ∨ handle = ⟨0, 7⟩ := by simpa [unevenSources] using mem
    · rfl
    · rfl
  have supply := supply_of_scripted streamCode integerOutlook
  have unfailing : Unfailing streamCode unevenSources 3 (AllScripted streamCode integerOutlook) :=
    supply.unfailing (fun f scripted => scripted.update rfl f) known
  have inside {handle : Handle} (mem : .lazy handle ∈ unevenSources) :
      handle.buffer < streams.store.buffers.size :=
    supply.inside allScripted_streams (Option.some_get (known mem)).symm
  have here : AllScripted streamCode integerOutlook made := by
    obtain ⟨_, rfl⟩ := ends_suspend.mp built
    exact allScripted_streams.suspend _
  have rests : (made.store.buffer 3).state ≠ .running := by
    obtain ⟨_, rfl⟩ := ends_suspend.mp built
    exact nofun
  obtain ⟨_, reads⟩ := zip_pads_columns inside built .refl
  obtain ⟨columns, _⟩ := zip_pads_columns inside built (.single (.ended forced))
  have three : greatest (fun id => (((integerOutlook id).map Course.prospect).map
      Prospect.length).getD 0) unevenSources = (3 : ℕ) := by
    change max ((2 : ℕ) : ℕ∞) (max ((3 : ℕ) : ℕ∞) (max ((3 : ℕ) : ℕ∞) 0)) = (3 : ℕ)
    rw [max_eq_left zero_le, max_self, max_eq_right]
    exact Nat.cast_le.mpr (by decide)
  obtain ⟨later, counted⟩ := (reads unfailing here rests).length (supply.lasting known)
    (rfl : (⟨3, 0⟩ : Handle).buffer = 3) three
  exact ⟨unfailing, made, after, later, built, here, forced, columns, counted⟩

end Terse
