import Terse.Proofs.Value.Equality

/-! Rows across sequences that can be relied on. Zipping pulls its sources, so the zipped sequence has no
course of its own to rely on; but forced, it comes to the rows of what its sources come to. -/
namespace Terse

variable {σ : Type} {code : Code σ} {outlook : Outlook} {before after : Machine σ}

/-- The row across lists at one place, with zeros for what is missing. -/
def rowForm (sources : List (List Value)) (index : Nat) : Value :=
  .list (sources.map fun forms => forms[index]?.getD (.ofInt 0))

def rowCount (sources : List (List Value)) : Nat :=
  sources.foldr (fun forms count => max forms.length count) 0

def rowForms (sources : List (List Value)) : List Value :=
  (List.range (rowCount sources)).map (rowForm sources)

def Sequence.zipped (sources : List Sequence) : Action σ Value := do
  let handle ← Handle.zip sources
  let rows ← handle.force
  return .list rows

abbrev SourcesTake (outlook : Outlook) : List Sequence → List (List Value) → Prop :=
  List.Forall₂ fun sequence forms => sequence.Takes outlook (.ending forms)

theorem SourcesTake.widen {wider : Outlook} {sources : List Sequence} {forms : List (List Value)}
    (takes : SourcesTake outlook sources forms)
    (known : ∀ {id course}, outlook id = some course → wider id = some course) :
    SourcesTake wider sources forms :=
  takes.imp fun _ _ takes => takes.widen known

theorem rowCount_le {sources : List (List Value)} {index : Nat} :
    rowCount sources ≤ index ↔ (sources.map (·[index]?)).all Option.isNone = true := by
  induction sources with
  | nil => simp [rowCount]
  | cons forms sources ih =>
    rw [List.map_cons, List.all_cons, Bool.and_eq_true, ← ih, rowCount, List.foldr_cons, ← rowCount,
      Nat.max_le]
    simp

namespace Steady

open Machine

theorem frame (steady : Steady code outlook before) (session : after.session = before.session)
    (host : after.host = before.host) (kept : ∀ {id course}, outlook id = some course →
      id < after.store.buffers.size ∧ after.store.buffer id = before.store.buffer id) :
    Steady code outlook after := by
  obtain ⟨ground, content, assurance, grounded, each⟩ := steady
  refine ⟨ground, content, assurance, by rw [session, host]; exact grounded, fun isKnown => ?_⟩
  obtain ⟨course, known⟩ := Option.isSome_iff_exists.mp isKnown
  obtain ⟨inside, same⟩ := kept known
  exact ⟨inside, same ▸ (each isKnown).2⟩

theorem update (steady : Steady code outlook before) {id : Nat} (unknown : outlook id = none)
    (f : Buffer → Buffer) : Steady code outlook (before.updateBuffer id f) := by
  refine steady.frame rfl rfl fun {other course} known => ?_
  have ne : other ≠ id := by
    rintro rfl
    simp [unknown] at known
  rw [size_updateBuffer]
  exact ⟨steady.inside known, Store.buffer_update_of_ne ne f⟩

theorem suspend (steady : Steady code outlook before) (generator : Generator) :
    Steady code outlook { before with store := (before.store.add generator).2 } := by
  refine steady.frame rfl rfl fun known => ?_
  have inside := steady.inside known
  refine ⟨?_, Store.buffer_add_of_lt inside generator⟩
  have grows := Store.Grows.add before.store generator
  exact Nat.lt_of_lt_of_le inside grows.size_le

theorem cells (steady : Steady code outlook before) {sources : List Sequence}
    {forms : List (List Value)} (takes : SourcesTake outlook sources forms) (index : Nat) :
    Mirrors code outlook before (sources.mapM (·.get index)) (.ok (forms.map (·[index]?)))
      fun wider => List.Forall₂ (Option.Rel (Forced wider)) := by
  induction forms generalizing before outlook sources with
  | nil =>
    cases takes
    exact .pure steady .nil
  | cons list forms ih =>
    cases takes with
    | @cons source _ sources _ head tail =>
      rw [List.mapM_cons]
      refine (steady.get_at head index).bind_ok fun widens steady cell => ?_
      refine (ih steady (SourcesTake.widen tail widens.known)).bind_ok fun widens' steady others => ?_
      exact .pure steady (.cons (Forced.widen_option widens'.known cell) others)

end Steady

theorem forced_cell {item form : Option Value} (cell : Option.Rel (Forced outlook) item form) :
    Forced outlook (item.getD (.ofInt 0)) (form.getD (.ofInt 0)) := by
  cases cell with
  | none => exact .number _
  | some forced => exact forced

theorem forced_row {cells : List (Option Value)} {sources : List (List Value)} {index : Nat}
    (each : List.Forall₂ (Option.Rel (Forced outlook)) cells (sources.map (·[index]?))) :
    Forced outlook (.list (cells.map (·.getD (.ofInt 0)))) (rowForm sources index) := by
  induction sources generalizing cells with
  | nil =>
    cases each
    exact Forced.list_iff.mpr .nil
  | cons forms sources ih =>
    cases each with
    | @cons cell _ cells _ head tail =>
      exact Forced.list_iff.mpr (.cons (forced_cell head) (Forced.list_iff.mp (ih tail)))

theorem all_isNone_of_rel {α β : Type} {r : α → β → Prop} {xs : List (Option α)}
    {ys : List (Option β)} (each : List.Forall₂ (Option.Rel r) xs ys) :
    xs.all Option.isNone = ys.all Option.isNone := by
  induction each with
  | nil => rfl
  | cons head _ ih =>
    rw [List.all_cons, List.all_cons, ih]
    cases head <;> rfl

namespace Steady

open Machine

section Zip

variable {id : Nat} {sources : List Sequence} {forms : List (List Value)}

/-- A pull of a zipped sequence gives the next row, if there is one; the sequence rests until then. -/
theorem pull_row (steady : Steady code outlook before) (takes : SourcesTake outlook sources forms)
    (unknown : outlook id = none) {index : Nat}
    (state : (before.store.buffer id).state = .ready (.zip sources index)) :
    ∃ row between wider, Ends code (Generator.zip sources index).next
        (before.updateBuffer id (·.withState .running))
        (.ok (if rowCount forms ≤ index then none else some (row, .zip sources (index + 1)))) between ∧
      outlook.Widens before.store.buffers.size wider ∧ Steady code wider between ∧
      Forced wider row (rowForm forms index) ∧ wider id = none ∧
      ∀ f : Buffer → Buffer, (between.updateBuffer id f).store.buffer id =
        f ((before.store.buffer id).withState .running) := by
  obtain ⟨cells, between, wider, ended, widens, steady', each⟩ :=
    ((steady.update unknown (·.withState .running)).cells takes index).answer
  rw [size_updateBuffer] at widens
  have pulled : Ends code (Generator.zip sources index).next
      (before.updateBuffer id (·.withState .running))
      (.ok (if rowCount forms ≤ index then none
        else some (.list (cells.map (·.getD (.ofInt 0))), .zip sources (index + 1)))) between := by
    refine ends_bind_ok.mpr ⟨cells, between, ended, ends_pure_ite.mpr ⟨?_, rfl⟩⟩
    simp only [all_isNone_of_rel each, ← rowCount_le]
  refine ⟨_, between, wider, pulled, widens, steady', forced_row each, ?_,
    pulled.buffer_settled state⟩
  exact (widens.old id (Store.lt_size_of_state_ne_done (by simp [state]))).trans unknown

theorem realize_rows {index : Nat} (steady : Steady code outlook before)
    (takes : SourcesTake outlook sources forms) (unknown : outlook id = none)
    (state : (before.store.buffer id).state = .ready (.zip sources index))
    (le : index ≤ rowCount forms)
    (realized : List.Forall₂ (Forced outlook) (before.store.buffer id).realized.toList
      ((List.range index).map (rowForm forms))) :
    ∃ reached after wider, Ends code (Action.realize id .all) before (.ok reached) after ∧
      outlook.Widens before.store.buffers.size wider ∧ Steady code wider after ∧
      List.Forall₂ (Forced wider) (after.store.buffer id).realized.toList (rowForms forms) := by
  -- The induction is on the number of rows that are still missing.
  obtain ⟨rest, count⟩ := Nat.exists_eq_add_of_le le
  induction rest generalizing before outlook index with
  | zero =>
    obtain ⟨row, between, wider, pulled, widens, steady', _, unknown', buffer⟩ :=
      steady.pull_row takes unknown state
    rw [if_pos (by omega)] at pulled
    refine ⟨false, _, wider, .realize_over rfl state pulled, widens, steady'.update unknown' _, ?_⟩
    rw [buffer, rowForms, count]
    exact Forced.widen_all widens.known realized
  | succ rest ih =>
    obtain ⟨row, between, wider, pulled, widens, steady', forced, unknown', buffer⟩ :=
      steady.pull_row takes unknown state
    rw [if_neg (by omega)] at pulled
    have next := buffer (·.produce row (.zip sources (index + 1)))
    have more : List.Forall₂ (Forced wider)
        ((before.store.buffer id).produce row (.zip sources (index + 1))).realized.toList
        ((List.range (index + 1)).map (rowForm forms)) := by
      rw [List.range_succ, List.map_append, Buffer.produce, Array.toList_push]
      exact List.rel_append (Forced.widen_all widens.known realized) (.cons forced .nil)
    obtain ⟨reached, after, widest, ended, widens', steady'', rows⟩ :=
      ih (steady'.update unknown' _) (takes.widen widens.known) unknown' (by rw [next]; rfl)
        (by omega) (by rw [next]; exact more) (by omega)
    exact ⟨reached, after, widest, .realize_more rfl state pulled ended,
      widens.trans pulled.size_le_settled widens', steady'', rows⟩

end Zip

theorem zipped {sources : List Sequence} {forms : List (List Value)}
    (steady : Steady code outlook before) (takes : SourcesTake outlook sources forms) :
    Mirrors code outlook before (Sequence.zipped sources) (.ok (.list (rowForms forms))) Forced := by
  have unknown : outlook before.store.buffers.size = none := by
    by_contra isKnown
    obtain ⟨course, known⟩ := Option.ne_none_iff_exists'.mp isKnown
    exact Nat.lt_irrefl _ (steady.inside known)
  have new : (before.store.add (.zip sources 0)).2.buffer before.store.buffers.size =
      .ofGenerator (.zip sources 0) := Store.buffer_add_self _ _
  obtain ⟨reached, after, wider, realized, widens, steady', rows⟩ :=
    (steady.suspend (.zip sources 0)).realize_rows takes unknown (by rw [new]; rfl) (Nat.zero_le _)
      (by rw [new]; exact .nil)
  have ended : Ends code (Sequence.zipped sources) before
      (.ok (.list (after.store.buffer before.store.buffers.size).realized.toList)) after :=
    ends_bind_ok.mpr ⟨_, _, ends_suspend.mpr ⟨rfl, rfl⟩, ends_bind_ok.mpr ⟨_, after,
      ends_bind_ok.mpr ⟨reached, after, realized,
        ends_bind_ok.mpr ⟨_, after, ends_store.mpr ⟨rfl, rfl⟩, ends_pure.mpr ⟨rfl, rfl⟩⟩⟩,
      ends_pure.mpr ⟨rfl, rfl⟩⟩⟩
  have grows := Store.Grows.add before.store (.zip sources 0)
  refine ⟨_, after, wider, ended, ?_, steady', .ok (Forced.list_iff.mpr rows)⟩
  exact ⟨widens.known, fun id inside => widens.old id (Nat.lt_of_lt_of_le inside grows.size_le)⟩

end Steady

end Terse
