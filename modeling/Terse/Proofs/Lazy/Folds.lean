import Terse.Proofs.Lazy.Iterates

namespace Terse

variable {σ : Type} {code : Code σ} {combiner : Callable} {F : Value → Value → Value}
  {items : List Value}

open Machine

/-- Whatever its arguments are, a call returns the value of this function and does nothing else. -/
def Callable.Combines (code : Code σ) (f : Callable) (F : Value → Value → Value) : Prop :=
  ∀ v w machine, Logs code (f.apply [v, w]) machine (.ok (F v w)) [.called f [v, w]] machine

def folded (F : Value → Value → Value) : List Value → Value
  | [] => .ofInt 0
  | first :: items => items.foldl F first

theorem Callable.Combines.ends_fold (combines : combiner.Combines code F) (items : List Value)
    (machine : Machine σ) :
    Ends code (combiner.fold items) machine (.ok (folded F items)) machine := by
  have rest (working : Value) (items : List Value) :
      Ends code (items.foldlM (fun working item => combiner.apply [working, item]) working) machine
        (.ok (items.foldl F working)) machine := by
    induction items generalizing working with
    | nil => exact ends_pure.mpr ⟨rfl, rfl⟩
    | cons item items ih =>
      rw [List.foldlM_cons]
      exact ends_bind_ok.mpr ⟨F working item, machine, (combines working item machine).ends, ih _⟩
  cases items with
  | nil => exact ends_pure.mpr ⟨rfl, rfl⟩
  | cons first items => exact rest first items

theorem folded_take_succ {i : Nat} {item : Value} (here : items[i + 1]? = some item) :
    folded F (items.take (i + 2)) = F (folded F (items.take (i + 1))) item := by
  cases items with
  | nil => cases here
  | cons first items =>
    rw [List.getElem?_cons_succ] at here
    simp only [List.take_succ_cons, folded]
    rw [List.take_add_one, here, List.foldl_append]
    rfl

namespace Routine

/-- Each pull has the combiner called once, with the fold so far and the next item. -/
def scan (combiner : Callable) (F : Value → Value → Value) (items : List Value) : Routine where
  item i := items[i + 1]?.map fun _ => folded F (items.take (i + 2))
  calls i := items[i + 1]?.toList.map fun item => (combiner, [folded F (items.take (i + 1)), item])
  generator
    | 0 => .scan combiner items none 1
    | i + 1 => .scan combiner items (some (folded F (items.take (i + 2)))) (i + 2)
  ends {i} finished := by
    rw [Option.map_eq_none_iff, List.getElem?_eq_none_iff] at finished ⊢
    exact Nat.le_succ_of_le finished

theorem item_scan (i : Nat) : (scan combiner F items).item i =
    ((List.range (items.length - 1)).map fun i => folded F (items.take (i + 2)))[i]? := by
  rw [List.getElem?_map]
  cases here : items[i + 1]? with
  | none =>
    have behind := List.getElem?_eq_none_iff.mp here
    rw [List.getElem?_eq_none (by rw [List.length_range]; omega)]
    simp [scan, here]
  | some item =>
    have inside := (List.getElem?_eq_some_iff.mp here).1
    rw [List.getElem?_range (by omega)]
    simp [scan, here]

variable (combiner F items) in
theorem generator_scan (i : Nat) : ∃ accumulator,
    (scan combiner F items).generator i = .scan combiner items accumulator (i + 1) ∧
      ∀ {item}, items[i + 1]? = some item →
        (accumulator <|> items.head?) = some (folded F (items.take (i + 1))) := by
  cases i with
  | succ i => exact ⟨_, rfl, fun _ => rfl⟩
  | zero =>
    refine ⟨none, rfl, fun here => ?_⟩
    cases items with
    | nil => cases here
    | cons first items => rfl

theorem sound_scan (combines : combiner.Combines code F) : (scan combiner F items).Sound code := by
  intro i _ machine
  obtain ⟨accumulator, generator, start⟩ := generator_scan combiner F items i
  rw [generator]
  simp only [Generator.next, scan]
  cases here : items[i + 1]? with
  | none => exact ⟨[], by cases (accumulator <|> items.head?) <;> exact .pure _ machine, rfl⟩
  | some item =>
    have called := combines (folded F (items.take (i + 1))) item machine
    rw [← folded_take_succ (F := F) here] at called
    rw [start here]
    exact ⟨_, called.bind (.pure _ machine), rfl⟩

theorem callsTo_scan (pulls : Nat) : (scan combiner F items).callsTo pulls =
    (items.tail.take pulls).mapIdx fun i item =>
      (combiner, [folded F (items.take (i + 1)), item]) := by
  induction pulls with
  | zero => rfl
  | succ pulls ih =>
    rw [callsTo_succ, ih, List.take_add_one, List.mapIdx_append, List.getElem?_tail]
    congr 1
    cases here : items[pulls + 1]? with
    | none => simp [scan, here]
    | some item =>
      have inside := (List.getElem?_eq_some_iff.mp here).1
      have length : (items.tail.take pulls).length = pulls := by
        rw [List.length_take, List.length_tail]
        omega
      simp [scan, here, length]

theorem size_le_scan {buffer : Buffer} (filled : buffer.Performs (scan combiner F items)) :
    buffer.realized.size ≤ items.tail.length := by
  cases size : buffer.realized.size with
  | zero => exact Nat.zero_le _
  | succ last =>
    have present := filled.present last (by omega)
    simp only [scan, Option.isSome_map, Option.isSome_iff_ne_none, ne_eq,
      List.getElem?_eq_none_iff] at present
    rw [List.length_tail]
    omega

/-- The pull that has found the end has had no item to combine. -/
theorem take_pulls {buffer : Buffer} (filled : buffer.Performs (scan combiner F items)) :
    items.tail.take buffer.pulls = items.tail.take buffer.realized.size := by
  by_cases state : buffer.state = .done
  · have finished := filled.finished state
    rw [scan, Option.map_eq_none_iff, List.getElem?_eq_none_iff] at finished
    have all : items.tail.length ≤ buffer.realized.size := by
      rw [List.length_tail]
      omega
    rw [Buffer.pulls_of_done state, List.take_of_length_le all,
      List.take_of_length_le (Nat.le_succ_of_le all)]
  · rw [Buffer.pulls_of_ne_done state]

end Routine

/-- The cumulative reduction of a list has one element less than the list, each the fold of a prefix,
and so the fold of the whole list as its last one. By whichever handles and between whatever else its
elements are read, the combiner has been called once for each that is realized: on the fold of the
items so far and the next one. -/
theorem scan_folds_prefixes (combines : combiner.Combines code F) {before made : Machine σ}
    {handle : Handle} (built : Ends code (Handle.scan combiner items) before (.ok handle) made) :
    made.Consists code handle.buffer
      (fun i => ((List.range (items.length - 1)).map fun i => folded F (items.take (i + 2)))[i]?) ∧
    (∀ list machine, Ends code (combiner.fold list) machine (.ok (folded F list)) machine) ∧
    (2 ≤ items.length → ((List.range (items.length - 1)).map fun i =>
      folded F (items.take (i + 2))).getLast? = some (folded F items)) ∧
    ∀ {log later}, Usage code handle.buffer made log later →
      callsIn log = (items.tail.take (later.store.buffer handle.buffer).realized.size).mapIdx
        (fun i item => (combiner, [folded F (items.take (i + 1)), item])) ∧
      (callsIn log).length = (later.store.buffer handle.buffer).realized.size := by
  have sound : (Routine.scan combiner F items).Sound code := Routine.sound_scan combines
  have performs : made.store.Performs (Routine.scan combiner F items) handle.buffer :=
    (Routine.performs_suspended built).2
  have consists := sound.consists performs
  refine ⟨by rwa [← funext Routine.item_scan], combines.ends_fold, fun many => ?_,
    fun {log later} usage => ?_⟩
  · obtain ⟨count, eq⟩ := Nat.exists_eq_add_of_le' many
    simp [eq, List.range_succ, List.take_of_length_le]
  · have calls := sound.calls built usage
    have filled := (sound.usage usage performs).1.2
    rw [Routine.callsTo_scan, Routine.take_pulls filled] at calls
    refine ⟨calls, ?_⟩
    rw [calls, List.length_mapIdx, List.length_take_of_le (Routine.size_le_scan filled)]

theorem combines_pureCode {meaning : Callable → List Value → Value} {f : Callable}
    (convention : f.convention = .closure) :
    f.Combines (pureCode meaning) fun v w => meaning f [v, w] := by
  intro v w machine
  rw [Callable.apply, convention]
  exact ⟨2, rfl, rfl⟩

def pairingCode : Code Unit := pureCode fun _ args => .list args

def threeTexts : List Value := [.text "a", .text "b", .text "c"]

/-- Three texts paired up from the left. An element read twice through one handle, and a search through
another that comes to the end without finding anything: there has been a call for each pair. -/
theorem scan_folds_prefixes_pairs :
    ∃ made log later,
      Ends pairingCode (Handle.scan counter threeTexts) unused (.ok ⟨0, 0⟩) made ∧
      made.Consists pairingCode 0 (fun i => [Value.list [.text "a", .text "b"],
        .list [.list [.text "a", .text "b"], .text "c"]][i]?) ∧
      Ends pairingCode (counter.fold threeTexts) made
        (.ok (.list [.list [.text "a", .text "b"], .text "c"])) made ∧
      Usage pairingCode 0 made log later ∧
      callsIn log = [(counter, [.text "a", .text "b"]),
        (counter, [.list [.text "a", .text "b"], .text "c"])] := by
  have runs : ∃ made first second later one two three,
      Ends pairingCode (Handle.scan counter threeTexts) unused (.ok ⟨0, 0⟩) made ∧
      Logs pairingCode (Handle.get ⟨0, 0⟩ 0) made (.ok (some (.list [.text "a", .text "b"]))) one
        first ∧
      Logs pairingCode (Handle.next ⟨0, 0⟩) first
        (.ok (some (.list [.text "a", .text "b"]), ⟨0, 1⟩)) two second ∧
      Logs pairingCode ((Sequence.lazy ⟨0, 5⟩).contains (.text "c")) second (.ok false) three
        later ∧
      (later.store.buffer 0).realized.size = 2 :=
    ⟨_, _, _, _, _, _, _, ⟨9, rfl⟩, ⟨9, rfl, rfl⟩, ⟨9, rfl, rfl⟩, ⟨9, rfl, rfl⟩, rfl⟩
  obtain ⟨made, first, second, later, _, _, _, built, got, moved, searched, size⟩ := runs
  have combines : counter.Combines pairingCode fun v w => .list [v, w] := combines_pureCode rfl
  obtain ⟨consists, folds, _, calls⟩ := scan_folds_prefixes combines built
  have usage := ((Usage.start.read (Action.Reads.get ⟨0, 0⟩ 0) got).read
    (Action.Reads.next ⟨0, 0⟩) moved).read (Action.Reads.contains ⟨0, 5⟩ rfl) searched
  obtain ⟨called, _⟩ := calls usage
  rw [size] at called
  exact ⟨made, _, later, built, consists, folds _ made, usage, called⟩

end Terse
