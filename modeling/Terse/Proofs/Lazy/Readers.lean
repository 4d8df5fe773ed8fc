import Mathlib.Data.List.Infix
import Terse.Proofs.Lazy.Reading

namespace Terse

variable {σ : Type}

inductive Reader where
  | handle (handle : Handle)
  | walk (walk : Walk)

namespace Reader

def sequence : Reader → Sequence
  | handle h => .lazy h
  | walk w => w.sequence

def position : Reader → Nat
  | handle h => h.cursor
  | walk w => w.index

def Reads (reader : Reader) (id : Nat) : Prop :=
  ∃ h, reader.sequence = .lazy h ∧ h.buffer = id

def next : Reader → Action σ (Option Value × Reader)
  | handle h => do
    let (item, moved) ← h.next
    return (item, handle moved)
  | walk w => do
    let (item, moved) ← w.next
    return (item, walk moved)

def advanced : Reader → Reader
  | handle h => handle { h with cursor := h.cursor + 1 }
  | walk w => walk { w with index := w.index + 1 }

def restarted (reader : Reader) : Reader := walk reader.sequence.walk

theorem position_advanced (reader : Reader) : reader.advanced.position = reader.position + 1 := by
  cases reader <;> rfl

theorem reads_advanced {reader : Reader} {id : Nat} (reads : reader.Reads id) :
    reader.advanced.Reads id := by
  obtain ⟨h, on, rfl⟩ := reads
  cases reader with
  | handle h' =>
    cases on
    exact ⟨_, rfl, rfl⟩
  | walk w => exact ⟨h, on, rfl⟩

theorem next_eq (reader : Reader) :
    (reader.next : Action σ (Option Value × Reader)) = do
      let item ← reader.sequence.get reader.position
      return (item, if item.isSome then reader.advanced else reader) := by
  cases reader with
  | handle h =>
    simp only [next, Handle.next, bind_assoc]
    congr 1
    funext item
    cases item <;> rfl
  | walk w =>
    simp only [next, Walk.next, bind_assoc]
    congr 1
    funext item
    cases item <;> rfl

theorem next_ends {code : Code σ} {reader moved : Reader} {before after : Machine σ}
    {item : Option Value} (ended : Machine.Ends code reader.next before (.ok (item, moved)) after) :
    Machine.Ends code (reader.sequence.get reader.position) before (.ok item) after ∧
      moved = if item.isSome then reader.advanced else reader := by
  rw [next_eq, Machine.ends_bind_ok] at ended
  obtain ⟨found, between, got, returned⟩ := ended
  obtain ⟨answered, rfl⟩ := Machine.ends_pure.mp returned
  simp only [Except.ok.injEq, Prod.mk.injEq] at answered
  obtain ⟨rfl, rfl⟩ := answered
  exact ⟨got, rfl⟩

end Reader

structure Reading (σ : Type) where
  machine : Machine σ
  readers : List Reader

def givenTo (reader : Nat) (given : List (Nat × Value)) : List Value :=
  given.filterMap fun gift => if gift.1 = reader then some gift.2 else none

theorem givenTo_append (reader : Nat) (first second : List (Nat × Value)) :
    givenTo reader (first ++ second) = givenTo reader first ++ givenTo reader second := by
  simp [givenTo]

namespace Reading

open Machine

/-- One move: a reader is added, or one of them asks for its next element, or anything else is done,
such as reading by index, counting, searching or forcing. -/
inductive Move (code : Code σ) (before : Reading σ) :
    List (Nat × Value) → List Event → Reading σ → Prop where
  | copied {i : Nat} {reader : Reader} : before.readers[i]? = some reader →
      Move code before [] [] ⟨before.machine, before.readers ++ [reader]⟩
  | restarted {i : Nat} {reader : Reader} : before.readers[i]? = some reader →
      Move code before [] [] ⟨before.machine, before.readers ++ [reader.restarted]⟩
  | next {i : Nat} {reader moved : Reader} {item : Option Value} {log : List Event}
      {after : Machine σ} : before.readers[i]? = some reader →
      Logs code reader.next before.machine (.ok (item, moved)) log after →
      Move code before (item.toList.map (i, ·)) log ⟨after, before.readers.set i moved⟩
  | failed {i : Nat} {reader : Reader} {e : Failure} {log : List Event} {after : Machine σ} :
      before.readers[i]? = some reader →
      Logs code reader.next before.machine (.error e) log after →
      Move code before [] log ⟨after, before.readers⟩
  | other {α : Type} {action : Action σ α} {result : Except Failure α} {log : List Event}
      {after : Machine σ} : Logs code action before.machine result log after →
      Move code before [] log ⟨after, before.readers⟩

/-- Moves in any order, with all that is given and all that is logged. -/
inductive Run (code : Code σ) (first : Reading σ) :
    List (Nat × Value) → List Event → Reading σ → Prop where
  | start : Run code first [] [] first
  | move {given more : List (Nat × Value)} {log further : List Event} {between after : Reading σ} :
      Run code first given log between → Move code between more further after →
      Run code first (given ++ more) (log ++ further) after

/-- How a reader of a buffer gets on: it is given elements of the buffer from its position on, and its
position moves by as many. -/
structure Progress (i id : Nat) (before : Reading σ) (reader : Reader) (given : List (Nat × Value))
    (after : Reading σ) (moved : Reader) : Prop where
  here : after.readers[i]? = some moved
  reads : moved.Reads id
  position : moved.position = reader.position + (givenTo i given).length
  given : givenTo i given <+: (after.machine.store.buffer id).realized.toList.drop reader.position
  inside : id < after.machine.store.buffers.size

theorem grows_of_move {code : Code σ} {before after : Reading σ} {given : List (Nat × Value)}
    {log : List Event} (move : Move code before given log after) :
    before.machine.store.Grows log after.machine.store := by
  cases move with
  | copied _ => exact .refl _
  | restarted _ => exact .refl _
  | next _ logged => exact (grows_law code).of_logs logged
  | failed _ logged => exact (grows_law code).of_logs logged
  | other logged => exact (grows_law code).of_logs logged

theorem grows_of_run {code : Code σ} {first last : Reading σ} {given : List (Nat × Value)}
    {log : List Event} (run : Run code first given log last) :
    first.machine.store.Grows log last.machine.store := by
  induction run with
  | start => exact .refl _
  | move _ move ih => exact ih.trans (grows_of_move move)

/-- A move gives a reader nothing and leaves it where it is, unless the reader itself has asked and
is given the element at its position. -/
theorem progress_of_move {code : Code σ} {before after : Reading σ} {given : List (Nat × Value)}
    {log : List Event} (move : Move code before given log after) {i id : Nat} {reader : Reader}
    (here : before.readers[i]? = some reader) (reads : reader.Reads id)
    (inside : id < before.machine.store.buffers.size) :
    ∃ moved, Progress i id before reader given after moved := by
  have inside' : id < after.machine.store.buffers.size :=
    Nat.lt_of_lt_of_le inside (grows_of_move move).size_le
  have within : i < before.readers.length := (List.getElem?_eq_some_iff.mp here).1
  have stays {readers : List Reader} {machine : Machine σ} (kept : readers[i]? = some reader)
      (inside : id < machine.store.buffers.size) :
      ∃ moved, Progress i id before reader [] ⟨machine, readers⟩ moved :=
    ⟨reader, kept, reads, rfl, List.nil_prefix, inside⟩
  cases move with
  | copied _ => exact stays (by rw [List.getElem?_append_left within, here]) inside'
  | restarted _ => exact stays (by rw [List.getElem?_append_left within, here]) inside'
  | failed _ _ => exact stays here inside'
  | other _ => exact stays here inside'
  | @next j asker moved item log machine there logged =>
    obtain ⟨got, rfl⟩ := Reader.next_ends logged.ends
    by_cases same : j = i
    · subst same
      obtain rfl : asker = reader := Option.some.inj (there.symm.trans here)
      obtain ⟨h, on, rfl⟩ := reads
      rw [on] at got
      obtain ⟨found, _⟩ := Ends.get_item got
      cases item with
      | none =>
        refine ⟨asker, ?_, ⟨h, on, rfl⟩, rfl, List.nil_prefix, inside'⟩
        simp [within]
      | some value =>
        refine ⟨asker.advanced, ?_, Reader.reads_advanced ⟨h, on, rfl⟩, ?_, ?_, inside'⟩
        · simp [within]
        · simp [givenTo, Reader.position_advanced]
        · have found : (machine.store.buffer h.buffer).realized.toList[asker.position]? =
              some value := by
            rw [Array.getElem?_toList]
            exact found.symm
          obtain ⟨bound, element⟩ := List.getElem?_eq_some_iff.mp found
          simp [givenTo, List.drop_eq_getElem_cons bound, element]
    · have nothing : givenTo i (item.toList.map (j, ·)) = [] := by
        cases item <;> simp [givenTo, same]
      refine ⟨reader, ?_, reads, ?_, ?_, inside'⟩
      · rw [List.getElem?_set_ne same, here]
      · rw [nothing]
        rfl
      · rw [nothing]
        exact List.nil_prefix

theorem Progress.trans {i id : Nat} {first between last : Reading σ} {reader middle moved : Reader}
    {given more : List (Nat × Value)} {log : List Event}
    (one : Progress i id first reader given between middle)
    (two : Progress i id between middle more last moved)
    (grows : between.machine.store.Grows log last.machine.store) :
    Progress i id first reader (given ++ more) last moved where
  here := two.here
  reads := two.reads
  position := by
    rw [two.position, one.position, givenTo_append, List.length_append, Nat.add_assoc]
  given := by
    -- What was given first is still there, and what is given next stands right behind it.
    have kept : givenTo i given <+:
        (last.machine.store.buffer id).realized.toList.drop reader.position := by
      apply one.given.trans
      rw [grows.realized id one.inside]
      exact List.IsPrefix.drop (List.prefix_append _ _) _
    obtain ⟨rest, kept⟩ := kept
    have next := two.given
    rw [one.position, ← List.drop_drop, ← kept, List.drop_left] at next
    rw [givenTo_append, ← kept]
    exact (List.prefix_append_right_inj _).mpr next
  inside := two.inside

theorem progress_of_run {code : Code σ} {first last : Reading σ} {given : List (Nat × Value)}
    {log : List Event} (run : Run code first given log last) {i id : Nat} {reader : Reader}
    (here : first.readers[i]? = some reader) (reads : reader.Reads id)
    (inside : id < first.machine.store.buffers.size) :
    ∃ moved, Progress i id first reader given last moved := by
  induction run with
  | start => exact ⟨reader, here, reads, rfl, List.nil_prefix, inside⟩
  | move run move ih =>
    obtain ⟨middle, one⟩ := ih
    obtain ⟨moved, two⟩ := progress_of_move move one.here one.reads one.inside
    exact ⟨moved, one.trans two (grows_of_move move)⟩

theorem stays_of_move {code : Code σ} {before after : Reading σ} {given : List (Nat × Value)}
    {log : List Event} (move : Move code before given log after) {i : Nat} {reader : Reader}
    (here : before.readers[i]? = some reader) (nothing : givenTo i given = []) :
    after.readers[i]? = some reader := by
  have within : i < before.readers.length := (List.getElem?_eq_some_iff.mp here).1
  cases move with
  | copied _ => rw [List.getElem?_append_left within, here]
  | restarted _ => rw [List.getElem?_append_left within, here]
  | failed _ _ => exact here
  | other _ => exact here
  | @next j asker moved item log machine there logged =>
    obtain ⟨_, rfl⟩ := Reader.next_ends logged.ends
    by_cases same : j = i
    · subst same
      obtain rfl : asker = reader := Option.some.inj (there.symm.trans here)
      cases item with
      | none => simp [within]
      | some value => simp [givenTo] at nothing
    · rw [List.getElem?_set_ne same, here]

/-- Readers share one stream and read it independently. From any point of a reader's life on, in
particular from where it was copied or restarted, the values it is given are the elements of its
buffer from its position on, without gap and repeat, and its position has moved by as many. A reader
to which a move gives nothing, because it met the end or a failure or because another one moved,
stays where it is. However many readers there are, each element of the buffer that is new has been
produced once. -/
theorem readers_share_one_stream {code : Code σ} {first last : Reading σ}
    {given : List (Nat × Value)} {log : List Event} (run : Run code first given log last)
    {i id : Nat} {reader : Reader} (here : first.readers[i]? = some reader)
    (reads : reader.Reads id) (inside : id < first.machine.store.buffers.size) :
    (∃ moved, last.readers[i]? = some moved ∧ moved.Reads id ∧
      moved.position = reader.position + (givenTo i given).length ∧
      givenTo i given <+:
        (last.machine.store.buffer id).realized.toList.drop reader.position) ∧
    (last.machine.store.buffer id).realized.toList =
      (first.machine.store.buffer id).realized.toList ++ producedFor id log ∧
    (∀ {more : List (Nat × Value)} {further : List Event} {after : Reading σ},
      Move code last more further after → ∀ j other, last.readers[j]? = some other →
        givenTo j more = [] → after.readers[j]? = some other) ∧
    reader.restarted.Reads id ∧ reader.restarted.position = 0 := by
  obtain ⟨moved, progress⟩ := progress_of_run run here reads inside
  refine ⟨⟨moved, progress.here, progress.reads, progress.position, progress.given⟩,
    (grows_of_run run).realized id inside, fun move j other there nothing => ?_, reads, rfl⟩
  exact stays_of_move move there nothing

end Reading

def flakyCode : Code Unit :=
  ⟨fun _ _ => .answer [], fun _ pull =>
    if pull = 1 then .fail .divisionByZero else .answer (some (.ofInt pull))⟩

def flakyReading : Reading Unit :=
  ⟨⟨(Store.empty.add (.native 0 0)).2, .initial [] {} .closed, ()⟩, [.handle ⟨0, 0⟩]⟩

/-- The handle reads an element and is copied; the copy meets the failure, asks again and is given the
next element; so is the handle. A new walk is given the first element again. -/
theorem readers_share_one_stream_flaky :
    ∃ log last, Reading.Run flakyCode flakyReading
        [(0, .ofInt 0), (1, .ofInt 2), (0, .ofInt 2), (2, .ofInt 0)] log last ∧
      (∃ moved, last.readers[0]? = some moved ∧ moved.position = 2) ∧
      (last.machine.store.buffer 0).realized.toList = producedFor 0 log := by
  have run : ∃ log last, Reading.Run flakyCode flakyReading
      [(0, .ofInt 0), (1, .ofInt 2), (0, .ofInt 2), (2, .ofInt 0)] log last := by
    have moves := (Reading.Run.start : Reading.Run flakyCode flakyReading [] [] flakyReading)
      |>.move (.next (i := 0) rfl ⟨9, rfl, rfl⟩) |>.move (.copied (i := 0) rfl)
      |>.move (.failed (i := 1) rfl ⟨9, rfl, rfl⟩) |>.move (.next (i := 1) rfl ⟨9, rfl, rfl⟩)
      |>.move (.next (i := 0) rfl ⟨9, rfl, rfl⟩) |>.move (.restarted (i := 0) rfl)
      |>.move (.next (i := 2) rfl ⟨9, rfl, rfl⟩)
    exact ⟨_, _, moves⟩
  obtain ⟨log, last, run⟩ := run
  have reads : (Reader.handle ⟨0, 0⟩).Reads 0 := ⟨⟨0, 0⟩, rfl, rfl⟩
  obtain ⟨⟨moved, there, _, position, _⟩, produced, _⟩ :=
    Reading.readers_share_one_stream run (i := 0) rfl reads (by decide)
  exact ⟨log, last, run, ⟨moved, there, position⟩, produced⟩

end Terse
