import Terse.Proofs.Lazy.Supply
import Terse.Proofs.Value.Equality

/-! Comparing and searching sequences that can be pulled at any time. Both go from the front and stop at
the first place that decides, so they ask for no element behind it. The value that is looked for may
have lazy sequences in it, even the sequence that is searched: an element is compared with it to no
greater depth than the element has, which is too little to get behind the element itself. -/
namespace Terse

variable {σ : Type} {code : Code σ} {prospects : Prospects} {good : Machine σ → Prop}

open Machine

def DrawsSettling (code : Code σ) (prospects : Prospects) (good : Machine σ → Prop)
    (step : Nat → Action σ (Option Bool)) (index : Nat) (verdict : Bool) (demand : Nat → ℕ∞) : Prop :=
  ∀ ⦃before⦄, good before → ∃ after, Settles code step index before (.ok verdict) after ∧
    good after ∧ DrawnEach prospects demand before after

namespace DrawsSettling

variable {step : Nat → Action σ (Option Bool)} {index : Nat} {answer : Bool}
  {demand further : Nat → ℕ∞}

theorem verdict (taken : Draws code prospects good (step index) (· = some answer) demand) :
    DrawsSettling code prospects good step index answer demand := by
  intro before here
  obtain ⟨_, after, ended, rfl, here, drawn⟩ := taken here
  exact ⟨after, .verdict ended, here, drawn⟩

theorem next (taken : Draws code prospects good (step index) (· = none) demand)
    (rest : DrawsSettling code prospects good step (index + 1) answer further) :
    DrawsSettling code prospects good step index answer (demand ⊔ further) := by
  intro before here
  obtain ⟨_, between, ended, rfl, here, drawn⟩ := taken here
  obtain ⟨after, settled, here, drawn'⟩ := rest here
  exact ⟨after, .next ended settled, here, fun _ _ known => (drawn known).trans (drawn' known)⟩

/-- Steps of which the first that decides is the last one taken. What their demands have in common has
to be kept when demands are joined. -/
theorem run (kind : Nat → (Nat → ℕ∞) → Prop) {last : Nat}
    (join : ∀ {i j d d'}, i ≤ j → kind i d → kind j d' → kind j (d ⊔ d'))
    (waiting : ∀ i < last, ∃ d, kind i d ∧ Draws code prospects good (step i) (· = none) d)
    (decided : ∃ d, kind last d ∧
      Draws code prospects good (step last) (· = some answer) d) :
    ∃ d, kind last d ∧ DrawsSettling code prospects good step 0 answer d := by
  have from_index (rest : Nat) : ∀ index, index + rest = last →
      ∃ d, kind last d ∧ DrawsSettling code prospects good step index answer d := by
    induction rest with
    | zero =>
      rintro index rfl
      obtain ⟨d, right, draws⟩ := decided
      exact ⟨d, right, .verdict draws⟩
    | succ rest ih =>
      rintro index rfl
      obtain ⟨d, right, draws⟩ := waiting index (by omega)
      obtain ⟨d', right', settling⟩ := ih (index + 1) (by omega)
      exact ⟨d ⊔ d', join (by omega) right right', .next draws settling⟩
  exact from_index last 0 (Nat.zero_add last)

theorem compare {left right : Sequence}
    (settling : DrawsSettling code prospects good (left.compareAt right) 0 answer demand) :
    Draws code prospects good (Action.request (.compare left right)) (· = answer) demand := by
  intro before here
  obtain ⟨after, settled, here, drawn⟩ := settling here
  exact ⟨answer, after, ends_compare.mpr settled, rfl, here, drawn⟩

theorem search {handle : Handle} {needle : Value}
    (settling : DrawsSettling code prospects good (handle.searchAt needle) 0 answer demand) :
    Draws code prospects good (Action.request (.search handle needle)) (· = answer) demand := by
  intro before here
  obtain ⟨after, settled, here, drawn⟩ := settling here
  exact ⟨answer, after, ends_search.mpr settled, rfl, here, drawn⟩

end DrawsSettling

namespace Prospect

def Told (prospect : Prospect) : Prop :=
  ∀ ⦃index : Nat⦄, (index : ℕ∞) < prospect.length → (prospect.element? index).isSome

structure Plain (prospect : Prospect) : Prop where
  told : prospect.Told
  free : ∀ {index t}, prospect.element? index = some t → t.LazyFree

theorem Told.eq_none_iff {prospect : Prospect} (told : prospect.Told) {index : Nat} :
    prospect.element? index = none ↔ prospect.length ≤ index := by
  constructor
  · intro behind
    refine not_lt.mp fun inside => ?_
    have found := told inside
    rw [behind] at found
    cases found
  · intro behind
    cases found : prospect.element? index with
    | none => rfl
    | some v => exact absurd (prospect.inside found) (not_lt.mpr behind)

theorem Told.gives {prospect : Prospect} (told : prospect.Told) {index : Nat} {item : Option Value}
    (gives : prospect.Gives index item) : item = prospect.element? index := by
  cases found : prospect.element? index with
  | some v => exact gives.foreseen found
  | none =>
    have behind := told.eq_none_iff.mp found
    rw [← Option.not_isSome_iff_eq_none, gives.isSome]
    exact not_lt.mpr behind

theorem told_ofList (values : List Value) : (ofList values).Told := by
  intro index inside
  have inside : index < values.length := Nat.cast_lt.mp inside
  simp [ofList, inside]

end Prospect

inductive Value.Over (prospects : Prospects) : Value → Prop where
  | number (q : Rat) : Over prospects (.number q)
  | text (s : String) : Over prospects (.text s)
  | function (f : Callable) : Over prospects (.function f)
  | list {items : List Value} : (∀ item ∈ items, Over prospects item) → Over prospects (.list items)
  | lazy {handle : Handle} : (prospects handle.buffer).isSome → Over prospects (.lazy handle)

def Prospects.Told (prospects : Prospects) : Prop :=
  ∀ ⦃id prospect⦄, prospects id = some prospect → prospect.Told ∧
    ∀ {index v}, prospect.element? index = some v → v.Over prospects

theorem Value.Over.offers {v : Value} {sequence : Sequence} (within : v.Over prospects)
    (told : prospects.Told) (many : v.sequence? = some sequence) :
    ∃ prospect, sequence.Offers prospects prospect ∧ prospect.Told ∧
      ∀ {index w}, prospect.element? index = some w → w.Over prospects := by
  cases within with
  | @list items each =>
    cases many
    exact ⟨_, .items items, Prospect.told_ofList items,
      fun found => each _ (List.mem_of_getElem? found)⟩
  | @lazy handle known =>
    cases many
    obtain ⟨prospect, known⟩ := Option.isSome_iff_exists.mp known
    exact ⟨prospect, .lazy known, told known⟩
  | _ => cases many

namespace Supply

theorem compareAt (supply : Supply code prospects good) {left right : Sequence}
    {p q : Prospect} (offers : left.Offers prospects p) (offers' : right.Offers prospects q)
    (told : p.Told) (told' : q.Told) {index : Nat} {answers : Option Bool → Prop}
    {demand : Nat → ℕ∞}
    (rest : Draws code prospects good
      (match p.element? index, q.element? index with
        | none, none => pure (some true)
        | some x, some y => do if ← x.equals y then return none else return some false
        | _, _ => pure (some false)) answers demand) :
    Draws code prospects good (left.compareAt right index) answers
      (left.asking (index + 1 : ℕ) ⊔ (right.asking (index + 1 : ℕ) ⊔ demand)) := by
  refine (supply.get_at offers index).bind fun x gives => ?_
  refine (supply.get_at offers' index).bind fun y gives' => ?_
  rw [← told.gives gives, ← told'.gives gives'] at rest
  exact rest

theorem compareAt_items (supply : Supply code prospects good) {items : List Value}
    {sequence : Sequence} {prospect : Prospect} (offers : sequence.Offers prospects prospect)
    (told : prospect.Told) {index : Nat} {x y : Option Value} (found : items[index]? = x)
    (found' : prospect.element? index = y) {answers : Option Bool → Prop} {demand : Nat → ℕ∞}
    (rest : Draws code prospects good
      (match x, y with
        | none, none => pure (some true)
        | some x, some y => do if ← x.equals y then return none else return some false
        | _, _ => pure (some false)) answers demand) :
    Draws code prospects good ((Sequence.items items).compareAt sequence index) answers
      ((Sequence.items items).asking (index + 1 : ℕ) ⊔
        (sequence.asking (index + 1 : ℕ) ⊔ demand)) := by
  subst found found'
  exact supply.compareAt (.items items) offers (Prospect.told_ofList items) told rest

theorem equals_plain (supply : Supply code prospects good) {t u : Value} (free : t.LazyFree)
    (free' : u.LazyFree) : Draws code prospects good (t.equals u) (· = t.same u) 0 := by
  intro before here
  exact ⟨_, before, free.equals free', rfl, here,
    fun _ _ known => (supply.bears here known).drawn_nothing⟩

theorem compare_differ (supply : Supply code prospects good) {left right : Sequence}
    {p q : Prospect} (offers : left.Offers prospects p) (offers' : right.Offers prospects q)
    (plain : p.Plain) (plain' : q.Plain) {first : Nat}
    (agree : ∀ index < first, p.element? index = q.element? index)
    (differ : p.element? first ≠ q.element? first) :
    Draws code prospects good (Action.request (.compare left right)) (· = false)
      (left.asking (first + 1 : ℕ) ⊔ right.asking (first + 1 : ℕ)) := by
  obtain ⟨_, rfl, settling⟩ : ∃ d, d = left.asking (first + 1 : ℕ) ⊔ right.asking (first + 1 : ℕ) ∧
      DrawsSettling code prospects good (left.compareAt right) 0 false d := by
    refine DrawsSettling.run
      (fun i d => d = left.asking (i + 1 : ℕ) ⊔ right.asking (i + 1 : ℕ)) ?_ ?_ ?_
    · rintro i j _ _ le rfl rfl
      have more : ((i + 1 : ℕ) : ℕ∞) ≤ (j + 1 : ℕ) := Nat.cast_le.mpr (by omega)
      rw [sup_sup_sup_comm, left.asking_sup, right.asking_sup, max_eq_right more]
    · intro index before
      refine ⟨_, rfl, ?_⟩
      have here := agree index before
      cases found : p.element? index with
      | none =>
        have behind := plain.told.eq_none_iff.mp found
        have behind' := plain'.told.eq_none_iff.mp (here ▸ found)
        have later : (index : ℕ∞) ≤ (first : ℕ∞) := Nat.cast_le.mpr before.le
        rw [plain.told.eq_none_iff.mpr (behind.trans later),
          plain'.told.eq_none_iff.mpr (behind'.trans later)] at differ
        exact absurd rfl differ
      | some t =>
        have free := plain.free found
        rw [← sup_bot_eq (right.asking _)]
        refine supply.compareAt offers offers' plain.told plain'.told ?_
        rw [← here, found]
        refine (supply.equals_plain free free).map ?_
        rintro _ rfl
        rw [free.same_iff.mpr rfl]
        exact .nothing supply rfl
    · refine ⟨_, rfl, ?_⟩
      rw [← sup_bot_eq (right.asking _)]
      refine supply.compareAt offers offers' plain.told plain'.told ?_
      cases found : p.element? first with
      | none =>
        cases found' : q.element? first with
        | none => exact absurd (found.trans found'.symm) differ
        | some u => exact .nothing supply rfl
      | some t =>
        cases found' : q.element? first with
        | none => exact .nothing supply rfl
        | some u =>
          have other : t.same u ≠ true := by
            rw [ne_eq, (plain.free found).same_iff]
            rintro rfl
            exact differ (found.trans found'.symm)
          refine (supply.equals_plain (plain.free found) (plain'.free found')).map ?_
          rintro _ rfl
          rw [if_neg other]
          exact .nothing supply rfl
  exact settling.compare

end Supply

/-! Comparing elements with a value that may be lazy. -/

/-- Of no sequence is more asked for than up to an element that is as large as this value. -/
def Modest (prospects : Prospects) (v : Value) (demand : Nat → ℕ∞) : Prop :=
  ∀ ⦃id prospect index t⦄, prospects id = some prospect → prospect.element? index = some t →
    t.LazyFree → sizeOf v ≤ sizeOf t → demand id ≤ (index + 1 : ℕ)

namespace Modest

variable {v w : Value} {demand further : Nat → ℕ∞}

theorem nothing : Modest prospects v 0 :=
  fun _ _ _ _ _ _ _ _ => zero_le

theorem sup (one : Modest prospects v demand) (two : Modest prospects v further) :
    Modest prospects v (demand ⊔ further) :=
  fun _ _ _ _ known found free le => sup_le (one known found free le) (two known found free le)

theorem of_le (modest : Modest prospects v demand) (le : sizeOf v ≤ sizeOf w) :
    Modest prospects w demand :=
  fun _ _ _ _ known found free le' => modest known found free (le.trans le')

/-- As long as a list agrees with a sequence, it has not got to an element as large as itself. -/
theorem asking {items : List Value} {sequence : Sequence} {prospect : Prospect} {index : Nat}
    (offers : sequence.Offers prospects prospect)
    (agree : ∀ i < index, ∀ t, prospect.element? i = some t → t.LazyFree → items[i]? = some t) :
    Modest prospects (.list items) (sequence.asking (index + 1 : ℕ)) := by
  intro id other j t known found free le
  cases offers with
  | items values => exact zero_le
  | @lazy handle _ known' =>
    by_cases same : id = handle.buffer
    · subst same
      obtain rfl := Option.some.inj (known'.symm.trans known)
      rw [Sequence.asking, asking_self, Nat.cast_le]
      by_contra beyond
      have smaller := List.sizeOf_lt_of_mem (List.mem_of_getElem? (agree j (by omega) t found free))
      have whole := Value.list.sizeOf_spec items
      omega
    · rw [Sequence.asking, asking_of_ne same]
      exact zero_le

theorem reads {items : List Value} {sequence : Sequence} {prospect : Prospect} {index : Nat}
    (offers : sequence.Offers prospects prospect)
    (agree : ∀ i < index, ∀ t, prospect.element? i = some t → t.LazyFree → items[i]? = some t)
    (modest : Modest prospects (.list items) demand) :
    Modest prospects (.list items) ((Sequence.items items).asking (index + 1 : ℕ) ⊔
      (sequence.asking (index + 1 : ℕ) ⊔ demand)) :=
  Modest.sup .nothing ((Modest.asking offers agree).sup modest)

end Modest

/-- The outcome of comparing is the same in all good machines, and to get there is modest. -/
def Compared (code : Code σ) (prospects : Prospects) (good : Machine σ → Prop) (t v : Value) : Prop :=
  ∃ verdict demand, Draws code prospects good (t.equals v) (· = verdict) demand ∧
    Modest prospects t demand

namespace Supply

theorem settles_items (supply : Supply code prospects good) {machine : Machine σ}
    (here : good machine) {items : List Value} {sequence : Sequence} {prospect : Prospect}
    (offers : sequence.Offers prospects prospect) (told : prospect.Told)
    (free : ∀ item ∈ items, item.LazyFree)
    (each : ∀ item ∈ items, ∀ {i w}, prospect.element? i = some w →
      Compared code prospects good item w)
    {rest : List Value} {index : Nat} (left : items.drop index = rest)
    (agree : ∀ i < index, ∀ t, prospect.element? i = some t → t.LazyFree → items[i]? = some t) :
    ∃ verdict demand, DrawsSettling code prospects good
        ((Sequence.items items).compareAt sequence) index verdict demand ∧
      Modest prospects (.list items) demand := by
  induction rest generalizing index with
  | nil =>
    have behind : items[index]? = none := by rw [← List.head?_drop, left, List.head?_nil]
    refine ⟨(prospect.element? index).isNone, _,
      .verdict (supply.compareAt_items offers told behind rfl ?_), .reads offers agree .nothing⟩
    cases prospect.element? index <;> exact .nothing supply rfl
  | cons item rest ih =>
    have found : items[index]? = some item := by rw [← List.head?_drop, left, List.head?_cons]
    have mem : item ∈ items := List.mem_of_getElem? found
    cases found' : prospect.element? index with
    | none =>
      exact ⟨false, _,
        .verdict (supply.compareAt_items offers told found found' (.nothing supply rfl)),
        .reads offers agree .nothing⟩
    | some w =>
      obtain ⟨verdict, demand, draws, modest⟩ := each item mem found'
      have smaller : sizeOf item ≤ sizeOf (Value.list items) := by
        have smaller := List.sizeOf_lt_of_mem mem
        have whole := Value.list.sizeOf_spec items
        omega
      have reads := Modest.reads offers agree (modest.of_le smaller)
      have taken : Draws code prospects good ((Sequence.items items).compareAt sequence index)
          (· = if verdict = true then none else some false)
          ((Sequence.items items).asking (index + 1 : ℕ) ⊔
            (sequence.asking (index + 1 : ℕ) ⊔ demand)) := by
        refine supply.compareAt_items offers told found found' (draws.map ?_)
        rintro answer rfl
        cases answer <;> exact .nothing supply rfl
      cases verdict with
      | false => exact ⟨false, _, .verdict taken, reads⟩
      | true =>
        -- An element that was found equal to an item is that item, so the list has got no further.
        have agree' (i : Nat) (below : i < index + 1) (t : Value)
            (there : prospect.element? i = some t) (plain : t.LazyFree) : items[i]? = some t := by
          by_cases earlier : i < index
          · exact agree i earlier t there plain
          · obtain rfl : i = index := by omega
            obtain rfl := Option.some.inj (found'.symm.trans there)
            obtain ⟨_, after, ended, rfl, _, _⟩ := draws here
            have same := (ended.unique ((free item mem).equals plain)).1
            rw [(free item mem).same_iff.mp (Except.ok.inj same).symm] at found
            exact found
        obtain ⟨verdict, further, settling, modest'⟩ := ih
          (by rw [← List.drop_drop, left]; rfl) agree'
        exact ⟨verdict, _, .next taken settling, reads.sup modest'⟩

/-- A tree can be compared with every value the sequences in which are known. -/
theorem compared (supply : Supply code prospects good) (told : prospects.Told)
    {machine : Machine σ} (here : good machine) {t v : Value} (free : t.LazyFree)
    (within : v.Over prospects) : Compared code prospects good t v := by
  induction free generalizing v with
  | @list items free ih =>
    cases many : v.sequence? with
    | none =>
      rw [Compared, Value.equals_scalar (.inr many)]
      exact ⟨_, 0, .nothing supply rfl, .nothing⟩
    | some sequence =>
      obtain ⟨prospect, offers, told', each⟩ := within.offers told many
      obtain ⟨verdict, demand, settling, modest⟩ := supply.settles_items here offers told' free
        (fun item mem _ _ found => ih item mem (each found)) (List.drop_zero ..)
        (fun _ none_before => absurd none_before (Nat.not_lt_zero _))
      rw [Compared, Value.equals_sequences rfl many]
      exact ⟨verdict, demand, settling.compare, modest⟩
  | _ =>
    rw [Compared, Value.equals_scalar (.inl rfl)]
    exact ⟨_, 0, .nothing supply rfl, .nothing⟩

end Supply

def AsksUpTo (id index : Nat) (demand : Nat → ℕ∞) : Prop :=
  demand id = ((index + 1 : ℕ) : ℕ∞)

theorem AsksUpTo.sup {id i j : Nat} {demand further : Nat → ℕ∞} (le : i ≤ j)
    (one : AsksUpTo id i demand) (two : AsksUpTo id j further) : AsksUpTo id j (demand ⊔ further) := by
  rw [AsksUpTo, Pi.sup_apply, one, two]
  exact sup_eq_right.mpr (Nat.cast_le.mpr (by omega))

namespace Supply

section Search

variable {machine : Machine σ} {handle : Handle} {prospect : Prospect} {needle : Value}

theorem searchAt (supply : Supply code prospects good) (told : prospects.Told)
    (here : good machine) (known : prospects handle.buffer = some prospect) (plain : prospect.Plain)
    (within : needle.Over prospects) {index : Nat} {t : Value}
    (found : prospect.element? index = some t) :
    ∃ verdict demand, AsksUpTo handle.buffer index demand ∧
      Draws code prospects good (handle.searchAt needle index)
        (· = if verdict = true then some true else none) demand ∧
      (verdict = true ↔ Agree code machine t needle) := by
  obtain ⟨verdict, demand, draws, modest⟩ :=
    supply.compared told here (plain.free found) within
  refine ⟨verdict, asking handle.buffer (index + 1 : ℕ) ⊔ demand, ?_, ?_, ?_⟩
  · rw [AsksUpTo, Pi.sup_apply, asking_self]
    exact sup_eq_left.mpr (modest known found (plain.free found) le_rfl)
  · refine (supply.get known index).bind fun item gives => ?_
    rw [plain.told.gives gives, found]
    refine draws.map ?_
    rintro verdict rfl
    cases verdict <;> exact .nothing supply rfl
  · obtain ⟨_, after, ended, rfl, _, _⟩ := draws here
    constructor
    · rintro rfl
      exact ⟨after, ended⟩
    · rintro ⟨_, ended'⟩
      exact Except.ok.inj (ended.unique ended').1

theorem searchAt_unmatched (supply : Supply code prospects good) (told : prospects.Told)
    (here : good machine) (known : prospects handle.buffer = some prospect) (plain : prospect.Plain)
    (within : needle.Over prospects) {index : Nat} {t : Value}
    (found : prospect.element? index = some t) (unmatched : ¬ Agree code machine t needle) :
    ∃ demand, AsksUpTo handle.buffer index demand ∧
      Draws code prospects good (handle.searchAt needle index) (· = none) demand := by
  obtain ⟨verdict, demand, own, draws, agree⟩ :=
    supply.searchAt told here known plain within found
  rw [if_neg (agree.not.mpr unmatched)] at draws
  exact ⟨demand, own, draws⟩

theorem contains_match (supply : Supply code prospects good) (told : prospects.Told)
    (here : good machine) (known : prospects handle.buffer = some prospect) (plain : prospect.Plain)
    (within : needle.Over prospects) {first : Nat} {t : Value}
    (found : prospect.element? first = some t) (agree : Agree code machine t needle)
    (unmatched : ∀ {index u}, index < first → prospect.element? index = some u →
      ¬ Agree code machine u needle) :
    ∃ demand, AsksUpTo handle.buffer first demand ∧
      Draws code prospects good ((Sequence.lazy handle).contains needle) (· = true) demand := by
  obtain ⟨demand, own, settling⟩ : ∃ demand, AsksUpTo handle.buffer first demand ∧
      DrawsSettling code prospects good (handle.searchAt needle) 0 true demand := by
    refine DrawsSettling.run _ AsksUpTo.sup (fun index before => ?_) ?_
    · have earlier : (index : ℕ∞) < prospect.length :=
        (Nat.cast_lt.mpr before).trans (prospect.inside found)
      obtain ⟨u, found'⟩ := Option.isSome_iff_exists.mp (plain.told earlier)
      exact supply.searchAt_unmatched told here known plain within found' (unmatched before found')
    · obtain ⟨verdict, demand, own, draws, agree'⟩ :=
        supply.searchAt told here known plain within found
      rw [if_pos (agree'.mpr agree)] at draws
      exact ⟨demand, own, draws⟩
  exact ⟨demand, own, settling.search⟩

theorem contains_unmatched (supply : Supply code prospects good) (told : prospects.Told)
    (here : good machine) (known : prospects handle.buffer = some prospect) (plain : prospect.Plain)
    (within : needle.Over prospects) {count : Nat} (ending : prospect.length = count)
    (unmatched : ∀ {index u}, prospect.element? index = some u → ¬ Agree code machine u needle) :
    ∃ demand, AsksUpTo handle.buffer count demand ∧
      Draws code prospects good ((Sequence.lazy handle).contains needle) (· = false) demand := by
  obtain ⟨demand, own, settling⟩ : ∃ demand, AsksUpTo handle.buffer count demand ∧
      DrawsSettling code prospects good (handle.searchAt needle) 0 false demand := by
    refine DrawsSettling.run _ AsksUpTo.sup (fun index before => ?_) ?_
    · have inside : (index : ℕ∞) < prospect.length := by
        rw [ending]
        exact Nat.cast_lt.mpr before
      obtain ⟨u, found⟩ := Option.isSome_iff_exists.mp (plain.told inside)
      exact supply.searchAt_unmatched told here known plain within found (unmatched found)
    · refine ⟨_, asking_self _ _, (supply.get known count).map fun item gives => ?_⟩
      have behind : prospect.element? count = none := plain.told.eq_none_iff.mpr ending.le
      rw [plain.told.gives gives, behind]
      exact .nothing supply rfl
  exact ⟨demand, own, settling.search⟩

end Search

end Supply

end Terse
