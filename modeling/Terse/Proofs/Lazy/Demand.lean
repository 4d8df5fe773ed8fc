import Terse.Proofs.Lazy.Zipped
import Terse.Proofs.Value.Supplied

namespace Terse

variable {σ : Type} {code : Code σ} {prospects : Prospects} {good : Machine σ → Prop}

open Machine

/-- The action answers like this, and asks so much of one sequence. -/
def Asks {α : Type} (code : Code σ) (prospect : Prospect) (machine : Machine σ) (id : Nat)
    (count : ℕ∞) (action : Action σ α) (answers : α → Prop) : Prop :=
  ∃ a after, Ends code action machine (.ok a) after ∧ answers a ∧
    Drawn prospect.length count (machine.store.buffer id) (after.store.buffer id)

theorem Draws.asks {α : Type} {action : Action σ α} {answers : α → Prop} {demand : Nat → ℕ∞}
    {prospect : Prospect} {machine : Machine σ} {id : Nat} {count : ℕ∞}
    (draws : Draws code prospects good action answers demand) (here : good machine)
    (known : prospects id = some prospect) (own : demand id = count) :
    Asks code prospect machine id count action answers := by
  obtain ⟨a, after, ended, right, _, drawn⟩ := draws here
  exact ⟨a, after, ended, right, own ▸ drawn known⟩

/-- What the questions about lazy sequences realize of them. -/
structure ExactDemand (code : Code σ) (prospects : Prospects) (good : Machine σ → Prop)
    (machine : Machine σ) : Prop where
  get : ∀ {handle : Handle} {prospect}, prospects handle.buffer = some prospect → ∀ index : Nat,
    Asks code prospect machine handle.buffer (index + 1 : ℕ) (handle.get index)
      (prospect.Gives index)
  /-- With indices cut at a number beyond the length, it is just as much. -/
  saturated : ∀ {id prospect}, prospects id = some prospect → ∀ index limit : Nat,
    prospect.length < limit →
      Asks code prospect machine id (index + 1 : ℕ)
        (Action.realize id (.upTo (min (index + 1) limit))) fun _ => True
  isEmpty : ∀ {handle : Handle} {prospect}, prospects handle.buffer = some prospect →
    Asks code prospect machine handle.buffer 1 (Sequence.lazy handle).isEmpty
      fun empty => empty = true ↔ prospect.length = 0
  truth : ∀ {handle : Handle} {prospect}, prospects handle.buffer = some prospect →
    Asks code prospect machine handle.buffer 1 (Value.lazy handle).truth
      fun truth => truth = true ↔ prospect.length ≠ 0
  unwrapped : ∀ {handle : Handle} {prospect}, prospects handle.buffer = some prospect →
    Asks code prospect machine handle.buffer 2 (Value.lazy handle).unwrapped fun _ => True
  /-- Up to the first match; the value may have sequences in it, the searched one too. -/
  contains : ∀ {handle : Handle} {prospect} {needle : Value}, prospects.Told →
    prospects handle.buffer = some prospect → prospect.Plain → needle.Over prospects →
      ∀ {first t}, prospect.element? first = some t → Agree code machine t needle →
        (∀ {index u}, index < first → prospect.element? index = some u →
          ¬ Agree code machine u needle) →
        ∃ after, Ends code ((Sequence.lazy handle).contains needle) machine (.ok true) after ∧
          (after.store.buffer handle.buffer).realized.size =
            max (machine.store.buffer handle.buffer).realized.size (first + 1)
  missing : ∀ {handle : Handle} {prospect} {needle : Value}, prospects.Told →
    prospects handle.buffer = some prospect → prospect.Plain → needle.Over prospects →
      ∀ {count : Nat}, prospect.length = count →
        (∀ {index u}, prospect.element? index = some u → ¬ Agree code machine u needle) →
        ∃ after, Ends code ((Sequence.lazy handle).contains needle) machine (.ok false) after ∧
          (after.store.buffer handle.buffer).realized.size = count ∧
          (after.store.buffer handle.buffer).state = .done
  /-- Up to the first difference, on each side that is lazy. -/
  equals : ∀ {v w : Value} {left right p q}, v.sequence? = some left → w.sequence? = some right →
    left.Offers prospects p → right.Offers prospects q → p.Plain → q.Plain →
      ∀ {first : Nat}, (∀ index < first, p.element? index = q.element? index) →
        p.element? first ≠ q.element? first →
        ∃ after, Ends code (v.equals w) machine (.ok false) after ∧
          ∀ {handle prospect}, left = .lazy handle ∨ right = .lazy handle →
            prospects handle.buffer = some prospect →
              Drawn prospect.length (first + 1 : ℕ) (machine.store.buffer handle.buffer)
                (after.store.buffer handle.buffer)
  /-- As many elements of each source as rows, whatever has been done since the sources were zipped.
  For the sources it does not matter what their rows are. -/
  row : ∀ {sources : List Sequence} {start made : Machine σ} {zip : Handle},
    (∀ {handle}, .lazy handle ∈ sources → handle.buffer < start.store.buffers.size) →
    Ends code (Handle.zip sources) start (.ok zip) made → Reaches code made machine →
    (machine.store.buffer zip.buffer).state ≠ .running →
    prospects zip.buffer = none →
    (∀ {machine} f, good machine → good (machine.updateBuffer zip.buffer f)) →
    (∀ {handle}, .lazy handle ∈ sources → (prospects handle.buffer).isSome) → ∀ index,
      ∃ row after, Ends code (zip.get index) machine (.ok row) after ∧
        ∀ {source prospect}, .lazy source ∈ sources → prospects source.buffer = some prospect →
          Drawn prospect.length (index + 1 : ℕ) (machine.store.buffer source.buffer)
            (after.store.buffer source.buffer)

theorem exact_demand {machine : Machine σ} (supply : Supply code prospects good)
    (here : good machine) : ExactDemand code prospects good machine where
  get known index := (supply.get known index).asks here known (asking_self _ _)
  saturated {id prospect} known index limit beyond := by
    obtain ⟨reached, after, ended, _, drawn⟩ :=
      supply.realize here known (min (index + 1) limit)
    refine ⟨reached, after, ended, trivial, ?_⟩
    have drawn := drawn known
    rw [asking_self] at drawn
    rcases Nat.le_total (index + 1) limit with within | cut
    · rwa [Nat.min_eq_left within] at drawn
    · rw [Nat.min_eq_right cut] at drawn
      exact drawn.congr_beyond beyond (beyond.trans_le (Nat.cast_le.mpr cut))
  isEmpty known := (supply.isEmpty (.lazy known)).asks here known (asking_self _ _)
  truth known := (supply.truth known).asks here known (asking_self _ _)
  unwrapped known := (supply.unwrapped known).asks here known (asking_self _ _)
  contains {handle prospect needle} told known plain within first t found agree unmatched := by
    obtain ⟨demand, own, draws⟩ :=
      supply.contains_match told here known plain within found agree unmatched
    obtain ⟨_, after, ended, rfl, _, drawn⟩ := draws here
    have drawn := drawn known
    rw [own] at drawn
    exact ⟨after, ended, drawn.size_of_le (prospect.succ_le_length found)⟩
  missing {handle prospect needle} told known plain within count ending unmatched := by
    obtain ⟨demand, own, draws⟩ :=
      supply.contains_unmatched told here known plain within ending unmatched
    obtain ⟨_, after, ended, rfl, here', drawn⟩ := draws here
    have drawn := drawn known
    rw [own] at drawn
    have beyond : prospect.length < ((count + 1 : ℕ) : ℕ∞) := by
      rw [ending]
      exact Nat.cast_lt.mpr (Nat.lt_succ_self count)
    have finished := drawn.done.mpr (.inr beyond)
    have whole := (supply.bears here' known).done finished
    rw [ending, Nat.cast_inj] at whole
    exact ⟨after, ended, whole, finished⟩
  equals {v w left right p q} many many' offers offers' plain plain' first agree differ := by
    rw [Value.equals_sequences many many']
    obtain ⟨_, after, ended, rfl, _, drawn⟩ :=
      supply.compare_differ offers offers' plain plain' agree differ here
    refine ⟨after, ended, fun {handle prospect} side known => ?_⟩
    have drawn := drawn known
    rw [Pi.sup_apply] at drawn
    rcases side with rfl | rfl
    · rwa [Sequence.asking, asking_self, sup_eq_left.mpr (right.asking_le _ _)] at drawn
    · rwa [Sequence.asking, asking_self, sup_eq_right.mpr (left.asking_le _ _)] at drawn
  row inside ended reaches rests unknown apart known index :=
    supply.row apart unknown known here (reaches.rows (rowsRead_zip ended inside)) rests index

/-! Scripted sequences, as supplies. -/

def Course.prospect (course : Course) : Prospect where
  length := match course with
    | .ending forms => forms.length
    | .unending _ => ⊤
  element? := course.at?
  inside {index v} found := by
    cases course with
    | ending forms => exact Nat.cast_lt.mpr (List.getElem?_eq_some_iff.mp found).1
    | unending form => exact ENat.natCast_lt_top index

theorem Course.told_prospect (course : Course) : course.prospect.Told := by
  intro index inside
  cases course with
  | ending forms =>
    have inside : index < forms.length := Nat.cast_lt.mp inside
    simp [prospect, at?, inside]
  | unending form => rfl

/-- The sequences of this outlook are filled by scripts that give just the forms of their courses. -/
def AllScripted (code : Code σ) (outlook : Outlook) (machine : Machine σ) : Prop :=
  ∀ ⦃id course⦄, outlook id = some course → id < machine.store.buffers.size ∧
    ∃ generators, Scripted code outlook course course.at? generators (machine.store.buffer id)

theorem Scripted.within {outlook : Outlook} {course : Course} {generators : Nat → Generator}
    {buffer : Buffer} (scripted : Scripted code outlook course course.at? generators buffer) :
    (buffer.realized.size : ℕ∞) ≤ course.prospect.length := by
  rcases Nat.eq_zero_or_pos buffer.realized.size with none_there | positive
  · rw [none_there]
    exact zero_le
  · have last := scripted.realized (buffer.realized.size - 1) (by omega)
    rw [Array.getElem?_eq_getElem (by omega)] at last
    have next := course.prospect.succ_le_length last.symm
    rwa [Nat.sub_add_cancel positive] at next

theorem Scripted.bears {outlook : Outlook} {course : Course} {generators : Nat → Generator}
    {buffer : Buffer} (scripted : Scripted code outlook course course.at? generators buffer) :
    buffer.Bears course.prospect where
  within := scripted.within
  foreseen {index v w} here there := by
    have same := scripted.realized index (Array.getElem?_eq_some_iff.mp here).1
    rw [here] at same
    exact Option.some.inj (same.trans there)
  rests := scripted.rests
  done state :=
    le_antisymm scripted.within (course.told_prospect.eq_none_iff.mp (scripted.done state))

theorem supply_of_scripted (code : Code σ) (outlook : Outlook) :
    Supply code (fun id => (outlook id).map Course.prospect) (AllScripted code outlook) where
  inside here known := by
    obtain ⟨course, found, rfl⟩ := Option.map_eq_some_iff.mp known
    exact (here found).1
  bears here known := by
    obtain ⟨course, found, rfl⟩ := Option.map_eq_some_iff.mp known
    obtain ⟨_, generators, scripted⟩ := here found
    exact scripted.bears
  pulled {machine id prospect generator} here known state := by
    obtain ⟨course, found, rfl⟩ := Option.map_eq_some_iff.mp known
    obtain ⟨_, generators, scripted⟩ := here found
    obtain rfl := scripted.ready state
    have pulled := scripted.script (machine.store.buffer id).realized.size
      (machine.updateBuffer id (·.withState .running))
    refine ⟨_, _, pulled, fun other _ ne => Store.buffer_update_of_ne ne _, ?_⟩
    intro other course' found'
    obtain ⟨inside, generators', scripted'⟩ := here found'
    refine ⟨by simpa [size_updateBuffer] using inside, ?_⟩
    by_cases own : other = id
    · subst own
      obtain rfl := Option.some.inj (found.symm.trans found')
      refine ⟨generators, ?_⟩
      rw [pulled.buffer_settled state]
      have next := scripted.afterPull (generators (machine.store.buffer other).realized.size)
      cases here : course.at? (machine.store.buffer other).realized.size <;>
        rw [here] at next <;> exact next
    · refine ⟨generators', ?_⟩
      rwa [updateBuffer, updateBuffer, Store.buffer_update_of_ne own, Store.buffer_update_of_ne own]

def integerOutlook : Outlook
  | 0 => some (.integers 0 3)
  | 1 => some (.unending fun i => .ofInt i)
  | _ => none

theorem allScripted_streams : AllScripted streamCode integerOutlook streams := by
  intro id course known
  match id, known with
  | 0, known =>
    obtain rfl := Option.some.inj known
    exact ⟨by decide, _, .fresh_plain (script_range streamCode 0 3) Course.lazyFree_integers⟩
  | 1, known =>
    obtain rfl := Option.some.inj known
    have script : Script streamCode (Course.unending fun i => .ofInt i).at? (.native 0) :=
      fun i machine => ⟨2, rfl⟩
    refine ⟨by decide, _, .fresh_plain script ?_⟩
    rintro i _ ⟨⟩
    exact .number _

theorem AllScripted.update {outlook : Outlook} {machine : Machine σ} {id : Nat}
    (scripted : AllScripted code outlook machine) (unknown : outlook id = none)
    (f : Buffer → Buffer) : AllScripted code outlook (machine.updateBuffer id f) := by
  intro other course known
  have ne : other ≠ id := by
    rintro rfl
    simp [unknown] at known
  rw [size_updateBuffer, updateBuffer, Store.buffer_update_of_ne ne]
  exact scripted known

theorem AllScripted.suspend {outlook : Outlook} {machine : Machine σ}
    (scripted : AllScripted code outlook machine) (generator : Generator) :
    AllScripted code outlook { machine with store := (machine.store.add generator).2 } := by
  intro id course known
  obtain ⟨inside, generators, scripted⟩ := scripted known
  refine ⟨Nat.lt_of_lt_of_le inside (Store.Grows.add machine.store generator).size_le, generators, ?_⟩
  rwa [Store.buffer_add_of_lt inside]

/-- Comparing the integers from zero to two with those without end takes all of the former and four of
the latter; reading the second row across them takes two of both. -/
theorem exact_demand_streams :
    AllScripted streamCode integerOutlook streams ∧
    (∃ after, Ends streamCode (Value.equals (.lazy ⟨0, 0⟩) (.lazy ⟨1, 0⟩)) streams (.ok false)
        after ∧
      (after.store.buffer 0).state = .done ∧
      (after.store.buffer 1).realized.size = 4 ∧ (after.store.buffer 1).state ≠ .done) ∧
    ∃ made row after, Ends streamCode (Handle.zip [.lazy ⟨0, 0⟩, .lazy ⟨1, 0⟩]) streams
        (.ok ⟨3, 0⟩) made ∧
      Ends streamCode (Handle.get ⟨3, 0⟩ 1) made (.ok row) after ∧
      (after.store.buffer 0).realized.size = 2 ∧ (after.store.buffer 1).realized.size = 2 := by
  have supply := supply_of_scripted streamCode integerOutlook
  have demand := exact_demand supply allScripted_streams
  have plain : (Course.integers 0 3).prospect.Plain :=
    ⟨Course.told_prospect _, Course.lazyFree_integers⟩
  have plain' : (Course.unending fun i => .ofInt i).prospect.Plain :=
    ⟨Course.told_prospect _, by rintro i _ ⟨⟩; exact .number _⟩
  have offers : (Sequence.lazy ⟨0, 0⟩).Offers
      (fun id => (integerOutlook id).map Course.prospect) (Course.integers 0 3).prospect := .lazy rfl
  have offers' : (Sequence.lazy ⟨1, 0⟩).Offers
      (fun id => (integerOutlook id).map Course.prospect)
      (Course.unending fun i => .ofInt i).prospect := .lazy rfl
  have agree (index : Nat) (below : index < 3) : (Course.integers 0 3).prospect.element? index =
      (Course.unending fun i => .ofInt i).prospect.element? index := by
    match index with
    | 0 | 1 | 2 => rfl
  have differ : (Course.integers 0 3).prospect.element? 3 ≠
      (Course.unending fun i => .ofInt i).prospect.element? 3 := nofun
  obtain ⟨after, ended, drawn⟩ := demand.equals
    (rfl : (Value.lazy ⟨0, 0⟩).sequence? = _) (rfl : (Value.lazy ⟨1, 0⟩).sequence? = _)
    offers offers' plain plain' agree differ
  have left := drawn (.inl rfl) (rfl : (integerOutlook 0).map Course.prospect = _)
  have right := drawn (.inr rfl) (rfl : (integerOutlook 1).map Course.prospect = _)
  have zipped : Ends streamCode (Handle.zip [.lazy ⟨0, 0⟩, .lazy ⟨1, 0⟩]) streams (.ok ⟨3, 0⟩) _ :=
    ends_suspend.mpr ⟨rfl, rfl⟩
  have demand' := exact_demand supply
    (allScripted_streams.suspend (.zip [.lazy ⟨0, 0⟩, .lazy ⟨1, 0⟩] 0))
  have sources {handle : Handle}
      (mem : .lazy handle ∈ [Sequence.lazy ⟨0, 0⟩, Sequence.lazy ⟨1, 0⟩]) :
      handle.buffer < 2 ∧ (integerOutlook handle.buffer).isSome := by
    obtain rfl | rfl : handle = ⟨0, 0⟩ ∨ handle = ⟨1, 0⟩ := by simpa using mem
    · exact ⟨by decide, rfl⟩
    · exact ⟨by decide, rfl⟩
  obtain ⟨row, last, read, each⟩ := demand'.row
    (fun mem => Nat.lt_of_lt_of_le (sources mem).1 (by decide)) zipped .refl nofun rfl
    (fun f scripted => scripted.update rfl f)
    (fun mem => Option.isSome_map.trans (sources mem).2) 1
  have left' := @each ⟨0, 0⟩ _ (by simp) rfl
  have right' := @each ⟨1, 0⟩ _ (by simp) rfl
  have two : ((2 : ℕ) : ℕ∞) ≤ (Course.integers 0 3).prospect.length :=
    Nat.cast_le.mpr (by decide : 2 ≤ 3)
  refine ⟨allScripted_streams, ⟨after, ended, left.done.mpr (.inr ?_), right.size_of_le le_top,
    fun finished => ?_⟩, _, row, last, zipped, read, left'.size_of_le two, right'.size_of_le le_top⟩
  · exact Nat.cast_lt.mpr (by decide : 3 < 4)
  · rcases right.done.mp finished with finished | beyond
    · cases finished
    · exact not_top_lt beyond

end Terse
