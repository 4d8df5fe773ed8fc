import Terse.Proofs.Lazy.Supply

/-! Zipped sequences and their sources. Whatever is done with either, a source has always been read as
far as there are rows, unless it is over; so a read of a row asks its sources for the rows that are
missing, and for nothing that was there before. -/
namespace Terse

variable {σ : Type} {code : Code σ} {sources : List Sequence} {id : Nat}

open Machine

def Buffer.Reaches (count : Nat) (buffer : Buffer) : Prop :=
  count ≤ buffer.realized.size ∨ buffer.state = .done

/-- The buffer holds rows across these sources, each of which has been read as far as there are rows. -/
structure RowsRead (sources : List Sequence) (id : Nat) (store : Store) : Prop where
  inside : id < store.buffers.size
  older : ∀ {handle}, .lazy handle ∈ sources → handle.buffer < id
  ready : ∀ {generator}, (store.buffer id).state = .ready generator →
    generator = .zip sources (store.buffer id).realized.size
  read : ∀ {handle}, .lazy handle ∈ sources →
    (store.buffer handle.buffer).Reaches (store.buffer id).realized.size
  done : (store.buffer id).state = .done → ∀ {handle}, .lazy handle ∈ sources →
    (store.buffer handle.buffer).state = .done

theorem Buffer.Reaches.grown {count : Nat} {before after : Buffer} (reaches : before.Reaches count)
    (size : before.realized.size ≤ after.realized.size)
    (done : before.state = .done → after.state = .done) : after.Reaches count := by
  rcases reaches with enough | finished
  · exact .inl (enough.trans size)
  · exact .inr (done finished)

theorem Machine.Keeps.size_le {before after : Machine σ} (keeps : Keeps id before after) :
    (before.store.buffer id).realized.size ≤ (after.store.buffer id).realized.size := by
  simpa using keeps.elements.length_le

theorem Machine.Keeps.reaches {before after : Machine σ} {count : Nat} (keeps : Keeps id before after)
    (reaches : (before.store.buffer id).Reaches count) : (after.store.buffer id).Reaches count :=
  reaches.grown keeps.size_le fun finished => by rw [keeps.done finished, finished]

theorem Machine.Ends.cells_read {index : Nat} {before after : Machine σ} {cells : List (Option Value)}
    (ended : Ends code (sources.mapM (·.get index)) before (.ok cells) after)
    (inside : ∀ {handle}, .lazy handle ∈ sources → handle.buffer < before.store.buffers.size) :
    ∀ {handle}, .lazy handle ∈ sources →
      (after.store.buffer handle.buffer).Reaches (index + 1) ∧
      (cells.all Option.isNone = true → (after.store.buffer handle.buffer).state = .done) := by
  induction sources generalizing before cells with
  | nil => simp
  | cons source sources ih =>
    rw [List.mapM_cons] at ended
    obtain ⟨cell, between, first, ended⟩ := ends_bind_ok.mp ended
    obtain ⟨others, last, rest, answered⟩ := ends_bind_ok.mp ended
    obtain ⟨same, rfl⟩ := ends_pure.mp answered
    obtain rfl := Except.ok.inj same
    have inside' {handle : Handle} (mem : .lazy handle ∈ source :: sources) :
        handle.buffer < between.store.buffers.size :=
      ((Step.ended first).keeps (inside mem)).inside
    intro handle mem
    have keeps := (Step.ended rest).keeps (inside' mem)
    rcases List.mem_cons.mp mem with rfl | mem
    · have first : Ends code (handle.get index) before (.ok cell) between := first
      obtain ⟨rfl, finished⟩ := first.get_item
      rw [List.all_cons, Bool.and_eq_true, Option.isNone_iff_eq_none]
      refine ⟨keeps.reaches ?_, fun ⟨missing, _⟩ => ?_⟩
      · cases found : (between.store.buffer handle.buffer).realized[index]? with
        | none => exact .inr (finished found)
        | some item => exact .inl (Array.getElem?_eq_some_iff.mp found).1
      · rw [keeps.done (finished missing), finished missing]
    · have below := ih rest (fun mem => inside' (List.mem_cons_of_mem _ mem)) mem
      rw [List.all_cons, Bool.and_eq_true]
      exact ⟨below.1, fun ⟨_, missing⟩ => below.2 missing⟩

namespace RowsRead

theorem source_inside {store : Store} (rows : RowsRead sources id store) {handle : Handle}
    (mem : .lazy handle ∈ sources) : handle.buffer < store.buffers.size :=
  Nat.lt_trans (rows.older mem) rows.inside

theorem update {store : Store} (rows : RowsRead sources id store) {other : Nat} (ne : other ≠ id)
    {f : Buffer → Buffer} (size : (store.buffer other).realized.size ≤ (f (store.buffer other)).realized.size)
    (done : (store.buffer other).state = .done → (f (store.buffer other)).state = .done) :
    RowsRead sources id (store.update other f) := by
  have own : (store.update other f).buffer id = store.buffer id :=
    Store.buffer_update_of_ne ne.symm f
  have grown {handle : Handle} (mem : .lazy handle ∈ sources) :
      (store.buffer handle.buffer).realized.size ≤
          ((store.update other f).buffer handle.buffer).realized.size ∧
        ((store.buffer handle.buffer).state = .done →
          ((store.update other f).buffer handle.buffer).state = .done) := by
    by_cases same : handle.buffer = other
    · subst same
      rw [Store.buffer_update_self (rows.source_inside mem)]
      exact ⟨size, done⟩
    · rw [Store.buffer_update_of_ne same]
      exact ⟨Nat.le_refl _, fun finished => finished⟩
  refine ⟨?_, rows.older, ?_, fun mem => ?_, fun finished _ mem => ?_⟩
  · rw [Store.size_update]
    exact rows.inside
  · rw [own]
    exact rows.ready
  · rw [own]
    exact (rows.read mem).grown (grown mem).1 (grown mem).2
  · rw [own] at finished
    exact (grown mem).2 (rows.done finished mem)

theorem update_self {store : Store} (rows : RowsRead sources id store) {f : Buffer → Buffer}
    (ready : ∀ {generator}, (f (store.buffer id)).state = .ready generator →
      generator = .zip sources (f (store.buffer id)).realized.size)
    (read : ∀ {handle}, .lazy handle ∈ sources →
      (store.buffer handle.buffer).Reaches (f (store.buffer id)).realized.size)
    (done : (f (store.buffer id)).state = .done → ∀ {handle}, .lazy handle ∈ sources →
      (store.buffer handle.buffer).state = .done) :
    RowsRead sources id (store.update id f) := by
  have own : (store.update id f).buffer id = f (store.buffer id) :=
    Store.buffer_update_self rows.inside f
  have others {handle : Handle} (mem : .lazy handle ∈ sources) :
      (store.update id f).buffer handle.buffer = store.buffer handle.buffer :=
    Store.buffer_update_of_ne (Nat.ne_of_lt (rows.older mem)) f
  refine ⟨?_, rows.older, ?_, fun mem => ?_, fun finished _ mem => ?_⟩
  · rw [Store.size_update]
    exact rows.inside
  · rw [own]
    exact ready
  · rw [own, others mem]
    exact read mem
  · rw [own] at finished
    rw [others mem]
    exact done finished mem

theorem begun {store : Store} (rows : RowsRead sources id store) {pulled : Nat}
    {generator : Generator} (state : (store.buffer pulled).state = .ready generator) :
    RowsRead sources id (store.update pulled (·.withState .running)) := by
  by_cases own : pulled = id
  · subst own
    exact rows.update_self nofun rows.read nofun
  · refine rows.update own (Nat.le_refl _) fun finished => ?_
    rw [state] at finished
    cases finished

theorem add {store : Store} (rows : RowsRead sources id store) (generator : Generator) :
    RowsRead sources id (store.add generator).2 := by
  have own : (store.add generator).2.buffer id = store.buffer id :=
    Store.buffer_add_of_lt rows.inside generator
  have others {handle : Handle} (mem : .lazy handle ∈ sources) :
      (store.add generator).2.buffer handle.buffer = store.buffer handle.buffer :=
    Store.buffer_add_of_lt (rows.source_inside mem) generator
  refine ⟨?_, rows.older, ?_, fun mem => ?_, fun finished _ mem => ?_⟩
  · exact Nat.lt_of_lt_of_le rows.inside (Store.Grows.add store generator).size_le
  · rw [own]
    exact rows.ready
  · rw [own, others mem]
    exact rows.read mem
  · rw [own] at finished
    rw [others mem]
    exact rows.done finished mem

theorem pulled {before after : Machine σ} {index : Nat}
    {result : Except Failure (Option (Value × Generator))} {buffer : Buffer}
    (rows : RowsRead sources id after.store)
    (inside : ∀ {handle}, .lazy handle ∈ sources → handle.buffer < before.store.buffers.size)
    (ended : Ends code (Generator.zip sources index).next before result after)
    (rests : after.store.buffer id = buffer) (size : buffer.realized.size = index) :
    RowsRead sources id (after.store.update id (·.afterPull (.zip sources index) result)) := by
  have kept {handle : Handle} (mem : .lazy handle ∈ sources) :
      (after.store.buffer handle.buffer).Reaches index := by
    have read := rows.read mem
    rwa [rests, size] at read
  rcases ends_bind.mp ended with ⟨cells, between, read, answered⟩ | ⟨e, _, rfl⟩
  · obtain ⟨rfl, rfl⟩ := ends_pure_ite.mp answered
    have cells {handle : Handle} (mem : .lazy handle ∈ sources) := read.cells_read inside mem
    split
    · rename_i missing
      refine rows.update_self nofun (fun mem => ?_) fun _ _ mem => (cells mem).2 missing
      rw [rests]
      change Buffer.Reaches buffer.realized.size _
      rw [size]
      exact kept mem
    · have next (row : Value) :
          (buffer.produce row (.zip sources (index + 1))).realized.size = index + 1 := by
        rw [Buffer.produce, Array.size_push, size]
      refine rows.update_self ?_ (fun mem => ?_) fun finished => ?_
      · rintro _ ⟨⟩
        rw [rests]
        exact congrArg _ (next _).symm
      · rw [rests]
        change Buffer.Reaches (buffer.produce _ _).realized.size _
        rw [next]
        exact (cells mem).1
      · cases finished
  · -- After a failure the same row is to come, and sources that were read for it stay ahead.
    refine rows.update_self ?_ (fun mem => ?_) fun finished => ?_
    · rintro _ ⟨⟩
      rw [rests]
      change _ = Generator.zip sources buffer.realized.size
      rw [size]
      rfl
    · rw [rests]
      change Buffer.Reaches buffer.realized.size _
      rw [size]
      exact kept mem
    · cases finished

end RowsRead

theorem rows_law (code : Code σ) (sources : List Sequence) (id : Nat) :
    RunLaw code fun before _ after =>
      RowsRead sources id before.store → RowsRead sources id after.store where
  rest _ rows := rows
  append one two rows := two (one rows)
  called _ _ law rows := law rows
  suspended _ generator rows := rows.add generator
  sessionSet _ _ rows := rows
  hostSet _ _ rows := rows
  pulled {_} within {other generator before result after} state ended rows := by
    have begun := rows.begun state
    have rows' : RowsRead sources id after.store := within ended begun
    obtain ⟨_, rests⟩ := Ends.rests state ⟨_, ended⟩
    by_cases own : other = id
    · subst own
      obtain rfl := rows.ready state
      exact rows'.pulled begun.source_inside ⟨_, ended⟩ rests rfl
    · refine rows'.update own ?_ fun finished => ?_
      · rw [rests]
        rcases result with e | _ | ⟨value, rest⟩
        · exact Nat.le_refl _
        · exact Nat.le_refl _
        · simp [Buffer.afterPull, Buffer.produce, Buffer.withState]
      · rw [rests] at finished
        cases finished

theorem Machine.Ends.rows {α : Type} {action : Action σ α} {before after : Machine σ}
    {result : Except Failure α} (ended : Ends code action before result after)
    (rows : RowsRead sources id before.store) : RowsRead sources id after.store := by
  obtain ⟨log, logged⟩ := ended.logs
  exact (rows_law code sources id).of_logs logged rows

theorem Machine.Reaches.rows {before after : Machine σ} (reaches : Reaches code before after)
    (rows : RowsRead sources id before.store) : RowsRead sources id after.store := by
  induction reaches with
  | refl => exact rows
  | tail _ step ih =>
    cases step with
    | ended ended => exact ended.rows ih
    | begun state => exact ih.begun state

theorem rowsRead_zip {start made : Machine σ} {zip : Handle}
    (ended : Ends code (Handle.zip sources) start (.ok zip) made)
    (inside : ∀ {handle}, .lazy handle ∈ sources → handle.buffer < start.store.buffers.size) :
    RowsRead sources zip.buffer made.store := by
  obtain ⟨same, rfl⟩ := ends_suspend.mp ended
  obtain rfl := Except.ok.inj same
  have fresh := Store.buffer_add_self start.store (.zip sources 0)
  refine ⟨?_, inside, ?_, fun mem => .inl ?_, ?_⟩
  · simp [Store.add]
  · rw [fresh]
    rintro _ ⟨⟩
    rfl
  · rw [fresh]
    exact Nat.zero_le _
  · rw [fresh]
    rintro ⟨⟩

/-! What rows draw from their sources. -/

theorem Buffer.Reaches.of_le {count more : Nat} {buffer : Buffer} (reaches : buffer.Reaches more)
    (le : count ≤ more) : buffer.Reaches count :=
  reaches.imp_left le.trans

theorem Drawn.of_reaches {prospect : Prospect} {demand : ℕ∞} {count : Nat} {before after : Buffer}
    (drawn : Drawn prospect.length demand before after) (le : demand ≤ count)
    (bears : after.Bears prospect) (reaches : after.Reaches count) :
    Drawn prospect.length count before after where
  size := by
    refine le_antisymm ?_ (max_le ?_ ?_)
    · rw [drawn.size]
      exact max_le_max_left _ (min_le_min_right _ le)
    · rw [drawn.size]
      exact le_max_left _ _
    · rcases reaches with enough | finished
      · exact (min_le_left _ _).trans (Nat.cast_le.mpr enough)
      · rw [bears.done finished]
        exact min_le_right _ _
  done := by
    rw [drawn.done]
    constructor
    · exact Or.imp_right fun beyond => beyond.trans_le le
    · rintro (finished | beyond)
      · exact .inl finished
      · rcases reaches with enough | finished
        · exact absurd (beyond.trans_le (Nat.cast_le.mpr enough)) (not_lt.mpr bears.within)
        · exact drawn.done.mp finished

theorem Sequence.asking_le (sequence : Sequence) (count : ℕ∞) (id : Nat) :
    sequence.asking count id ≤ count := by
  cases sequence with
  | items values => exact zero_le
  | lazy handle =>
    rw [asking, Terse.asking]
    split
    · exact le_rfl
    · exact zero_le

theorem DrawnEach.frame {prospects : Prospects} {demand : Nat → ℕ∞}
    {before after before' after' : Machine σ} (drawn : DrawnEach prospects demand before after)
    (same : ∀ {id prospect}, prospects id = some prospect →
      before'.store.buffer id = before.store.buffer id ∧
      after'.store.buffer id = after.store.buffer id) : DrawnEach prospects demand before' after' := by
  intro id prospect known
  rw [(same known).1, (same known).2]
  exact drawn known

namespace Supply

variable {prospects : Prospects} {good : Machine σ → Prop}

theorem cells (supply : Supply code prospects good)
    (known : ∀ {handle}, .lazy handle ∈ sources → (prospects handle.buffer).isSome) (index : Nat) :
    ∃ demand, (∀ other, demand other ≤ ((index + 1 : ℕ) : ℕ∞)) ∧
      Draws code prospects good (sources.mapM (·.get index)) (fun _ => True) demand := by
  induction sources with
  | nil => exact ⟨0, fun _ => zero_le, .nothing supply trivial⟩
  | cons source sources ih =>
    obtain ⟨prospect, offers⟩ : ∃ prospect, source.Offers prospects prospect := by
      cases source with
      | items values => exact ⟨_, .items values⟩
      | lazy handle =>
        obtain ⟨prospect, here⟩ := Option.isSome_iff_exists.mp (known List.mem_cons_self)
        exact ⟨prospect, .lazy here⟩
    obtain ⟨demand, le, draws⟩ := ih fun mem => known (List.mem_cons_of_mem _ mem)
    refine ⟨source.asking (index + 1 : ℕ) ⊔ demand,
      fun other => sup_le (source.asking_le _ other) (le other), ?_⟩
    rw [List.mapM_cons]
    exact (supply.get_at offers index).bind fun _ _ => draws.map fun _ _ => .nothing supply trivial

/-- The rows that are missing are realized, and of each source as much as is in one of them. -/
theorem realize_rows (supply : Supply code prospects good)
    (apart : ∀ {machine} f, good machine → good (machine.updateBuffer id f))
    (unknown : prospects id = none)
    (known : ∀ {handle}, .lazy handle ∈ sources → (prospects handle.buffer).isSome)
    {before : Machine σ} (here : good before) (rows : RowsRead sources id before.store)
    (rests : (before.store.buffer id).state ≠ .running) (count : Nat) :
    ∃ reached after demand, Ends code (Action.realize id (.upTo count)) before (.ok reached) after ∧
      good after ∧ (∀ other, demand other ≤ (count : ℕ∞)) ∧
      DrawnEach prospects demand before after := by
  have nothing {machine : Machine σ} (here : good machine) : DrawnEach prospects 0 machine machine :=
    fun _ _ known => (supply.bears here known).drawn_nothing
  -- The induction is on the number of rows that are missing.
  generalize missing : count - (before.store.buffer id).realized.size = rest
  induction rest using Nat.strongRecOn generalizing before with
  | ind rest ih =>
    cases unmet : (Demand.upTo count).isMet (before.store.buffer id).realized.size with
    | true => exact ⟨true, before, 0, .realize_met unmet, here, fun _ => zero_le, nothing here⟩
    | false =>
      have less : (before.store.buffer id).realized.size < count := by
        simpa [Demand.isMet] using unmet
      cases state : (before.store.buffer id).state with
      | running => exact absurd state rests
      | done =>
        exact ⟨false, before, 0, .realize_done unmet state, here, fun _ => zero_le, nothing here⟩
      | ready generator =>
        obtain rfl := rows.ready state
        obtain ⟨demand, le, draws⟩ := supply.cells known (before.store.buffer id).realized.size
        have next : Draws code prospects good
            (Generator.zip sources (before.store.buffer id).realized.size).next (fun _ => True)
            demand := by
          refine draws.map fun cells _ => ?_
          split <;> exact .nothing supply trivial
        obtain ⟨result, between, pulled, _, here', drawn⟩ := next (apart (·.withState .running) here)
        have le' (other : Nat) : demand other ≤ (count : ℕ∞) :=
          (le other).trans (Nat.cast_le.mpr less)
        have ne {other : Nat} {prospect : Prospect} (known : prospects other = some prospect) :
            other ≠ id := by
          rintro rfl
          simp [unknown] at known
        have drawn (f : Buffer → Buffer) :
            DrawnEach prospects demand before (between.updateBuffer id f) :=
          drawn.frame fun known => ⟨(Store.buffer_update_of_ne (ne known) _).symm,
            Store.buffer_update_of_ne (ne known) _⟩
        cases result with
        | none =>
          exact ⟨false, _, demand, .realize_over unmet state pulled, apart _ here', le', drawn _⟩
        | some produced =>
          obtain ⟨row, rest⟩ := produced
          obtain ⟨_, rows'⟩ := (rows_law code sources id).of_pull state pulled
          have settled := pulled.buffer_settled state (·.produce row rest)
          have size : ((before.store.buffer id).produce row rest).realized.size =
              (before.store.buffer id).realized.size + 1 := Array.size_push ..
          obtain ⟨reached, after, further, ended, here'', le'', drawn'⟩ := ih
            (count - ((before.store.buffer id).realized.size + 1)) (by omega)
            (apart (·.produce row rest) here') (rows' rows)
            (by rw [settled]; simp [Buffer.produce])
            (by rw [settled, ← size]; rfl)
          refine ⟨reached, after, demand ⊔ further, .realize_more unmet state pulled ended, here'',
            fun other => sup_le (le' other) (le'' other), fun _ _ known => ?_⟩
          exact (drawn _ known).trans (drawn' known)

/-- A read of a row leaves in each source the elements up to that row, if there are so many. -/
theorem row (supply : Supply code prospects good) {zip : Handle}
    (apart : ∀ {machine} f, good machine → good (machine.updateBuffer zip.buffer f))
    (unknown : prospects zip.buffer = none)
    (known : ∀ {handle}, .lazy handle ∈ sources → (prospects handle.buffer).isSome)
    {before : Machine σ} (here : good before) (rows : RowsRead sources zip.buffer before.store)
    (rests : (before.store.buffer zip.buffer).state ≠ .running) (index : Nat) :
    ∃ row after, Ends code (zip.get index) before (.ok row) after ∧
      ∀ {source prospect}, .lazy source ∈ sources → prospects source.buffer = some prospect →
        Drawn prospect.length (index + 1 : ℕ) (before.store.buffer source.buffer)
          (after.store.buffer source.buffer) := by
  obtain ⟨reached, after, demand, realized, here', le, drawn⟩ :=
    supply.realize_rows apart unknown known here rows rests (index + 1)
  obtain ⟨row, ended⟩ := Ends.get realized
  refine ⟨row, after, ended, fun {source _} mem known => ?_⟩
  refine (drawn known).of_reaches (le _) (supply.bears here' known) ?_
  have rows := ended.rows rows
  obtain ⟨found, finished⟩ := ended.get_item
  cases row with
  | none => exact .inr (rows.done (finished rfl) mem)
  | some row =>
    obtain ⟨below, _⟩ := Array.getElem?_eq_some_iff.mp found.symm
    exact (rows.read mem).of_le below

end Supply

end Terse
