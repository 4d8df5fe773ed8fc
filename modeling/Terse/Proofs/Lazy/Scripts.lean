import Terse.Proofs.Lazy.Steady

namespace Terse

variable {σ : Type}

/-- Generators of which each gives its item, and the next one to go on with, and does nothing else. -/
def Script (code : Code σ) (items : Nat → Option Value) (generators : Nat → Generator) : Prop :=
  ∀ i machine, Machine.Ends code (generators i).next machine
    (.ok ((items i).map fun item => (item, generators (i + 1)))) machine

structure Scripted (code : Code σ) (outlook : Outlook) (course : Course) (items : Nat → Option Value)
    (generators : Nat → Generator) (buffer : Buffer) : Prop where
  script : Script code items generators
  forced : ∀ i, Option.Rel (Forced outlook) (items i) (course.at? i)
  realized : ∀ i < buffer.realized.size, buffer.realized[i]? = items i
  rests : buffer.state ≠ .running
  ready : ∀ {generator}, buffer.state = .ready generator →
    generator = generators buffer.realized.size
  done : buffer.state = .done → items buffer.realized.size = none

namespace Scripted

variable {code : Code σ} {outlook wider : Outlook} {course : Course} {items : Nat → Option Value}
  {generators : Nat → Generator} {buffer : Buffer}

theorem fresh (script : Script code items generators)
    (forced : ∀ i, Option.Rel (Forced outlook) (items i) (course.at? i)) :
    Scripted code outlook course items generators (.ofGenerator (generators 0)) where
  script := script
  forced := forced
  realized i inside := by simp [Buffer.ofGenerator] at inside
  rests := by simp [Buffer.ofGenerator]
  ready := by rintro _ ⟨⟩; rfl
  done := by simp [Buffer.ofGenerator]

theorem fresh_plain (script : Script code course.at? generators)
    (free : ∀ {i form}, course.at? i = some form → form.LazyFree) :
    Scripted code outlook course course.at? generators (.ofGenerator (generators 0)) := by
  refine fresh script fun i => ?_
  cases here : course.at? i with
  | none => exact .none
  | some form => exact .some (.of_lazyFree (free here))

theorem fits (scripted : Scripted code outlook course items generators buffer) :
    buffer.Fits outlook course where
  realized {i item} here := by
    obtain ⟨inside, _⟩ := Array.getElem?_eq_some_iff.mp here
    have forced := scripted.forced i
    rw [← scripted.realized i inside, here] at forced
    generalize course.at? i = form at forced ⊢
    cases forced with
    | some forced => exact ⟨_, rfl, forced⟩
  rests := scripted.rests
  done done := by
    have forced := scripted.forced buffer.realized.size
    rw [scripted.done done] at forced
    generalize course.at? buffer.realized.size = form at forced ⊢
    cases forced
    rfl

theorem widen (scripted : Scripted code outlook course items generators buffer)
    (known : ∀ {id course}, outlook id = some course → wider id = some course) :
    Scripted code wider course items generators buffer :=
  { scripted with forced := fun i => Forced.widen_option known (scripted.forced i) }

theorem afterPull (scripted : Scripted code outlook course items generators buffer)
    (generator : Generator) : Scripted code outlook course items generators (buffer.afterPull generator
      (.ok ((items buffer.realized.size).map fun item =>
        (item, generators (buffer.realized.size + 1))))) := by
  cases here : items buffer.realized.size with
  | none =>
    exact { scripted with rests := nofun, ready := nofun, done := fun _ => here }
  | some item =>
    refine { scripted with realized := ?_, rests := nofun, ready := ?_, done := nofun }
    · intro i inside
      simp only [Buffer.afterPull, Buffer.produce, Option.map_some, Array.size_push] at inside ⊢
      by_cases last : i = buffer.realized.size
      · rw [last, here, Array.getElem?_push_size]
      · rw [Array.getElem?_push_lt (by omega), ← scripted.realized i (by omega)]
        exact (Array.getElem?_eq_getElem _).symm
    · rintro _ ⟨⟩
      simp [Buffer.afterPull, Buffer.produce]

end Scripted

theorem scripted_assurance (code : Code σ) :
    Assurance code (fun _ _ => True) fun outlook id buffer =>
      ∃ course items generators, outlook id = some course ∧
        Scripted code outlook course items generators buffer where
  fits := by
    rintro outlook id course buffer ⟨_, items, generators, known, scripted⟩ known'
    obtain rfl := Option.some.inj (known.symm.trans known')
    exact scripted.fits
  widen := by
    rintro outlook wider id buffer ⟨course, items, generators, here, scripted⟩ known
    exact ⟨course, items, generators, known here, scripted.widen known⟩
  pulled := by
    rintro outlook id buffer generator machine ⟨course, items, generators, here, scripted⟩ _ state
      inside _ _
    obtain rfl := scripted.ready state
    refine ⟨_, machine, outlook, ⟨scripted.script _ machine, trivial, .refl _ _, fun _ _ => rfl, ?_⟩,
      course, items, generators, here, scripted.afterPull _⟩
    intro other course' outside known
    have isKnown : (outlook other).isSome := by simp [known]
    have := inside isKnown
    omega

theorem steady_of_scripted {code : Code σ} {outlook : Outlook} {machine : Machine σ}
    (each : ∀ {id course}, outlook id = some course → id < machine.store.buffers.size ∧
      ∃ items generators,
        Scripted code outlook course items generators (machine.store.buffer id)) :
    Steady code outlook machine := by
  refine ⟨_, _, scripted_assurance code, trivial, fun {id} isKnown => ?_⟩
  obtain ⟨course, known⟩ := Option.isSome_iff_exists.mp isKnown
  obtain ⟨inside, items, generators, scripted⟩ := each known
  exact ⟨inside, course, items, generators, known, scripted⟩

def Course.integers (start : Int) (count : Nat) : Course :=
  .ending ((List.range count).map fun i : Nat => .ofInt (start + i))

theorem Course.lazyFree_integers {start : Int} {count i : Nat} {form : Value}
    (here : (integers start count).at? i = some form) : form.LazyFree := by
  obtain ⟨_, _, rfl⟩ := List.mem_map.mp (List.mem_of_getElem? here)
  exact .number _

theorem script_range (code : Code σ) (start : Int) (count : Nat) :
    Script code (Course.integers start count).at? fun i => .range (start + i) (start + count) := by
  intro i machine
  by_cases inside : i < count
  · have more : start + (i : Int) < start + count := by omega
    refine Machine.ends_pure.mpr ⟨?_, rfl⟩
    simp [Course.integers, Course.at?, inside, Int.add_assoc]
  · refine Machine.ends_pure.mpr ⟨?_, rfl⟩
    simp [Course.integers, Course.at?, inside]

end Terse
