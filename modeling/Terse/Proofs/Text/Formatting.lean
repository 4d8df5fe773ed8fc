import Mathlib.Data.Finset.Card
import Mathlib.Data.Finset.Range
import Terse.Proofs.Lazy.Columns
import Terse.Proofs.Literal.Written
import Terse.Proofs.Value.Forms
import Terse.Text.Ring

/-! Values within texts. The data of a template or of a ring is forced, but its elements are written as
they stand: of a lazy sequence in them only what is realized is shown. So a text depends on what its data
comes to and on how much the sequences inside its elements show, and on nothing else: not on how lists
are stored, nor on how much was realized of the data itself. -/
namespace Terse

variable {σ : Type}

namespace Sequence

def dots (store : Store) : Sequence → List String
  | .items _ => []
  | .lazy handle => if store.isExhausted handle then [] else ["..."]

theorem dots_of_over {store : Store} {sequence : Sequence} (ended : sequence.IsOver store) :
    sequence.dots store = [] := by
  cases sequence with
  | items values => rfl
  | lazy handle =>
    have done : (store.buffer handle.buffer).state = .done := ended
    rw [dots, Store.isExhausted, done]
    rfl

theorem dots_of_not_over {store : Store} {sequence : Sequence} (more : ¬ sequence.IsOver store) :
    sequence.dots store = ["..."] := by
  cases sequence with
  | items values => exact absurd trivial more
  | lazy handle =>
    have undone : (store.buffer handle.buffer).state ≠ .done := more
    rw [dots, Store.isExhausted]
    cases state : (store.buffer handle.buffer).state with
    | done => exact absurd state undone
    | _ => rfl

theorem dots_eq {store store' : Store} {one other : Sequence}
    (same : one.IsOver store ↔ other.IsOver store') : one.dots store = other.dots store' := by
  by_cases ended : one.IsOver store
  · rw [dots_of_over ended, dots_of_over (same.mp ended)]
  · rw [dots_of_not_over ended, dots_of_not_over (same.not.mp ended)]

end Sequence

/-- In their stores the two values show equally much of the sequences in them: as many elements, and
whether there may be more. -/
inductive ShowAlike (store store' : Store) : Value → Value → Prop where
  | scalars {v w : Value} : v.sequence? = none → w.sequence? = none → ShowAlike store store' v w
  | sequences {v w : Value} {one other : Sequence} : v.sequence? = some one →
      w.sequence? = some other → (one.IsOver store ↔ other.IsOver store') →
      List.Forall₂ (ShowAlike store store') (one.elements store) (other.elements store') →
      ShowAlike store store' v w

/-! Values of one form nest no more sequences than there are buffers for smaller forms, so the bound on
the nesting of written sequences is never met. -/

theorem Value.sizeOf_lt_list {t : Value} {forms : List Value} (mem : t ∈ forms) :
    sizeOf t < sizeOf (Value.list forms) := by
  have smaller := List.sizeOf_lt_of_mem mem
  rw [Value.list.sizeOf_spec]
  omega

namespace Outlook

variable {outlook : Outlook} {size : Nat}

open Classical in
noncomputable def fitting (outlook : Outlook) (size : Nat) (t : Value) : Finset Nat :=
  (Finset.range size).filter fun id =>
    ∃ forms, outlook id = some (.ending forms) ∧ sizeOf (Value.list forms) ≤ sizeOf t

/-- No value of this form has sequences nested deeper than that. -/
noncomputable def room (outlook : Outlook) (size : Nat) (t : Value) : Nat :=
  (outlook.fitting size t).card

theorem mem_fitting {id : Nat} {t : Value} : id ∈ outlook.fitting size t ↔
    id < size ∧ ∃ forms, outlook id = some (.ending forms) ∧
      sizeOf (Value.list forms) ≤ sizeOf t := by
  simp only [fitting, Finset.mem_filter, Finset.mem_range]

theorem room_le (outlook : Outlook) (size : Nat) (t : Value) : outlook.room size t ≤ size := by
  classical exact (Finset.card_filter_le _ _).trans (Finset.card_range size).le

theorem fitting_mono {t u : Value} (le : sizeOf t ≤ sizeOf u) :
    outlook.fitting size t ⊆ outlook.fitting size u := by
  intro id mem
  obtain ⟨inside, forms, known, fits⟩ := mem_fitting.mp mem
  exact mem_fitting.mpr ⟨inside, forms, known, fits.trans le⟩

theorem room_mono {t u : Value} (le : sizeOf t ≤ sizeOf u) :
    outlook.room size t ≤ outlook.room size u :=
  Finset.card_le_card (fitting_mono le)

section Known

variable {id : Nat} {forms : List Value} (inside : id < size)
  (known : outlook id = some (.ending forms))

include inside known

theorem fitting_self : id ∈ outlook.fitting size (.list forms) :=
  mem_fitting.mpr ⟨inside, forms, known, le_rfl⟩

theorem room_pos : 0 < outlook.room size (.list forms) :=
  Finset.card_pos.mpr ⟨id, fitting_self inside known⟩

theorem room_lt {t : Value} (mem : t ∈ forms) :
    outlook.room size t < outlook.room size (.list forms) := by
  have smaller := Value.sizeOf_lt_list mem
  refine Finset.card_lt_card (Finset.ssubset_iff_subset_ne.mpr
    ⟨fitting_mono smaller.le, fun same => ?_⟩)
  have here := fitting_self inside known
  rw [← same] at here
  obtain ⟨_, others, known', fits⟩ := mem_fitting.mp here
  rw [known] at known'
  obtain rfl := Course.ending.inj (Option.some.inj known')
  omega

end Known

end Outlook

namespace Store

theorem displayWithin_scalar {v : Value} (single : v.sequence? = none) (store store' : Store)
    (depth depth' : Nat) : store.displayWithin depth v = store'.displayWithin depth' v := by
  cases v with
  | list | lazy => simp [Value.sequence?] at single
  | _ => cases depth <;> cases depth' <;> simp only [displayWithin, Value.displayWith]

theorem displayWithin_list (store : Store) (depth : Nat) (items : List Value) :
    store.displayWithin depth (.list items) =
      "[" ++ String.intercalate ", " (items.map (store.displayWithin depth)) ++ "]" := by
  cases depth <;> simp only [displayWithin, Value.displayWith, Value.displayItems_eq]

theorem displayWithin_lazy (store : Store) (depth : Nat) (handle : Handle) :
    store.displayWithin (depth + 1) (.lazy handle) =
      "[" ++ String.intercalate ", " ((store.realized handle).map (store.displayWithin depth) ++
        (Sequence.lazy handle).dots store) ++ "]" :=
  rfl

end Store

namespace Steady

open Machine

variable {code : Code σ} {outlook outlook' : Outlook} {machine machine' : Machine σ}

theorem shown_forced {sequence : Sequence} {forms : List Value} (steady : Steady code outlook machine)
    (takes : sequence.Takes outlook (.ending forms)) {i : Nat} {item : Value}
    (shown : (sequence.elements machine.store)[i]? = some item) :
    ∃ form, forms[i]? = some form ∧ Forced outlook item form := by
  cases takes with
  | items each =>
    have here := Forced.getElem?_rel each i
    rw [Sequence.elements] at shown
    rw [shown] at here
    generalize forms[i]? = form at here ⊢
    cases here with
    | some forced => exact ⟨_, rfl, forced⟩
  | lazy known =>
    refine (steady.fits known).realized ?_
    rw [← Array.getElem?_toList]
    exact shown

/-- With room enough, a sequence is written as what it shows, its elements with room enough for them. -/
theorem exists_displayWithin {v : Value} {forms : List Value} {sequence : Sequence} {depth : Nat}
    (steady : Steady code outlook machine) (forced : Forced outlook v (.list forms))
    (here : v.sequence? = some sequence)
    (enough : outlook.room machine.store.buffers.size (.list forms) ≤ depth) :
    ∃ inner, (∀ form ∈ forms, outlook.room machine.store.buffers.size form ≤ inner) ∧
      machine.store.displayWithin depth v =
        "[" ++ String.intercalate ", "
          ((sequence.elements machine.store).map (machine.store.displayWithin inner) ++
            sequence.dots machine.store) ++ "]" := by
  cases forced with
  | list =>
    obtain rfl := Option.some.inj here
    refine ⟨depth, fun form mem => ?_, ?_⟩
    · exact (Outlook.room_mono (Value.sizeOf_lt_list mem).le).trans enough
    · rw [Store.displayWithin_list, Sequence.dots, List.append_nil]
      rfl
  | @lazy handle _ known free =>
    obtain rfl := Option.some.inj here
    have inside := steady.inside known
    obtain ⟨inner, rfl⟩ : ∃ inner, depth = inner + 1 := by
      have := Outlook.room_pos inside known
      exact ⟨depth - 1, by omega⟩
    refine ⟨inner, fun form mem => ?_, machine.store.displayWithin_lazy inner handle⟩
    have := Outlook.room_lt inside known mem
    omega

theorem map_shown_eq {one other : Sequence} {forms : List Value} {write write' : Value → String}
    (steady : Steady code outlook machine) (steady' : Steady code outlook' machine')
    (takes : one.Takes outlook (.ending forms)) (takes' : other.Takes outlook' (.ending forms))
    (alike : List.Forall₂ (ShowAlike machine.store machine'.store) (one.elements machine.store)
      (other.elements machine'.store))
    (each : ∀ form ∈ forms, ∀ {v w}, Forced outlook v form → Forced outlook' w form →
      ShowAlike machine.store machine'.store v w → write v = write' w) :
    (one.elements machine.store).map write = (other.elements machine'.store).map write' := by
  obtain ⟨length, pairwise⟩ := List.forall₂_iff_get.mp alike
  refine List.ext_getElem? fun i => ?_
  rw [List.getElem?_map, List.getElem?_map]
  by_cases shown : i < (one.elements machine.store).length
  · have shown' := length ▸ shown
    have item := List.getElem?_eq_getElem shown
    have item' := List.getElem?_eq_getElem shown'
    obtain ⟨form, found, forced⟩ := steady.shown_forced takes item
    obtain ⟨form', found', forced'⟩ := steady'.shown_forced takes' item'
    obtain rfl := Option.some.inj (found.symm.trans found')
    rw [item, item']
    exact congrArg some
      (each form (List.mem_of_getElem? found) forced forced' (pairwise i shown shown'))
  · rw [List.getElem?_eq_none (by omega), List.getElem?_eq_none (by omega)]
    rfl

/-- Values that come to the same form and show equally much are written alike, whatever their bounds on
the nesting, if these leave room enough. -/
theorem displayWithin_eq {t : Value} (free : t.LazyFree) {v w : Value} {depth depth' : Nat}
    (steady : Steady code outlook machine) (steady' : Steady code outlook' machine')
    (forced : Forced outlook v t) (forced' : Forced outlook' w t)
    (alike : ShowAlike machine.store machine'.store v w)
    (enough : outlook.room machine.store.buffers.size t ≤ depth)
    (enough' : outlook'.room machine'.store.buffers.size t ≤ depth') :
    machine.store.displayWithin depth v = machine'.store.displayWithin depth' w := by
  -- The induction is on the form, of which one value may nest sequences where the other has lists.
  induction free generalizing v w depth depth' with
  | @list forms free ih =>
    obtain ⟨one, here, takes⟩ := forced.sequence
    obtain ⟨other, there, takes'⟩ := forced'.sequence
    obtain ⟨inner, each, written⟩ := steady.exists_displayWithin forced here enough
    obtain ⟨inner', each', written'⟩ := steady'.exists_displayWithin forced' there enough'
    cases alike with
    | scalars single _ =>
      rw [single] at here
      cases here
    | sequences found found' same elements =>
      obtain rfl := Option.some.inj (here.symm.trans found)
      obtain rfl := Option.some.inj (there.symm.trans found')
      rw [written, written', Sequence.dots_eq same,
        steady.map_shown_eq steady' takes takes' elements fun form mem _ _ comes comes' alike =>
          ih form mem comes comes' alike (each form mem) (each' form mem)]
  | _ =>
    obtain rfl := forced.scalar rfl
    obtain rfl := forced'.scalar rfl
    exact Store.displayWithin_scalar rfl _ _ _ _

theorem display_eq {v w t : Value} (steady : Steady code outlook machine)
    (steady' : Steady code outlook' machine') (forced : Forced outlook v t)
    (forced' : Forced outlook' w t) (alike : ShowAlike machine.store machine'.store v w) :
    machine.store.display v = machine'.store.display w :=
  steady.displayWithin_eq forced.lazyFree steady' forced forced' alike
    (outlook.room_le _ t) (outlook'.room_le _ t)

theorem plainText_eq {v w t : Value} (steady : Steady code outlook machine)
    (steady' : Steady code outlook' machine') (forced : Forced outlook v t)
    (forced' : Forced outlook' w t) (alike : ShowAlike machine.store machine'.store v w) :
    machine.store.plainText v = machine'.store.plainText w := by
  have written := steady.display_eq steady' forced forced' alike
  cases t with
  | text s =>
    obtain rfl := forced.scalar rfl
    obtain rfl := forced'.scalar rfl
    rfl
  | _ => cases forced <;> cases forced' <;> exact written

theorem plainTexts_eq {items items' forms : List Value} (steady : Steady code outlook machine)
    (steady' : Steady code outlook' machine') (each : List.Forall₂ (Forced outlook) items forms)
    (each' : List.Forall₂ (Forced outlook') items' forms)
    (alike : List.Forall₂ (ShowAlike machine.store machine'.store) items items') :
    items.map machine.store.plainText = items'.map machine'.store.plainText :=
  steady.map_shown_eq steady' (.items each) (.items each') alike
    fun _ _ _ _ forced forced' alike => steady.plainText_eq steady' forced forced' alike

end Steady

namespace Machine.Ends

variable {code : Code σ} {before after : Machine σ} {data : Value} {items : List Value}

theorem plainItems (forced : Ends code data.elements before (.ok items) after) :
    Ends code data.plainItems before (.ok (items.map after.store.plainText)) after := by
  have spelled : (data.plainItems : Action σ (List String)) = (do
      let items ← data.elements
      let store ← Action.store
      return items.map store.plainText) := (Value.elements_bind data).symm
  rw [spelled]
  exact ends_bind_ok.mpr ⟨items, after, forced,
    ends_bind_ok.mpr ⟨_, after, ends_store.mpr ⟨rfl, rfl⟩, ends_pure.mpr ⟨rfl, rfl⟩⟩⟩

theorem fillInto (forced : Ends code data.elements before (.ok items) after) (template : String) :
    Ends code (data.fillInto template) before
      (.ok (Template.render template (items.map after.store.plainText))) after :=
  ends_bind_ok.mpr ⟨_, after, forced.plainItems, ends_pure.mpr ⟨rfl, rfl⟩⟩

theorem turnText {ring : List String} (spelled : Ends code data.ringItems before (.ok ring) after)
    (s : String) : Ends code (data.turnText s) before (.ok (Ring.turn ring s)) after :=
  ends_bind_ok.mpr ⟨_, after, spelled, ends_pure.mpr ⟨rfl, rfl⟩⟩

theorem turnText_elements (forced : Ends code data.elements before (.ok items) after)
    (many : data.isSequence = true) (s : String) :
    Ends code (data.turnText s) before
      (.ok (Ring.turn (items.map after.store.plainText) s)) after := by
  have ring : (data.ringItems : Action σ (List String)) = data.plainItems := by
    cases data with
    | list | lazy => rfl
    | _ => simp [Value.isSequence, Value.sequence?] at many
  have spelled := forced.plainItems
  rw [← ring] at spelled
  exact spelled.turnText s

end Machine.Ends

/-- Each used in its machine, the two give the same texts, as data of a template and as rings. -/
structure FormatAlike (code : Code σ) (one other : Machine σ) (data data' : Value) : Prop where
  filled : ∀ template, ∃ text after after',
    Machine.Ends code (data.fillInto template) one (.ok text) after ∧
      Machine.Ends code (data'.fillInto template) other (.ok text) after'
  turned : data.isSequence = true → ∀ s, ∃ text after after',
    Machine.Ends code (data.turnText s) one (.ok text) after ∧
      Machine.Ends code (data'.turnText s) other (.ok text) after'

def ElementsShowAlike (code : Code σ) (one other : Machine σ) (data data' : Value) : Prop :=
  ∀ {items items' after after'}, Machine.Ends code data.elements one (.ok items) after →
    Machine.Ends code data'.elements other (.ok items') after' →
      List.Forall₂ (ShowAlike after.store after'.store) items items'

/-- Data that a comparison finds equal gives the same texts, in whatever machines it is used later, as
long as the sequences inside its elements show equally much there. -/
theorem formatAlike_of_agree {code : Code σ} {outlook wider wider' : Outlook}
    {machine one other : Machine σ} {data data' t u : Value} (steady : Steady code outlook machine)
    (forced : Forced outlook data t) (forced' : Forced outlook data' u)
    (agree : Agree code machine data data')
    (widens : outlook.Widens machine.store.buffers.size wider) (steadyOne : Steady code wider one)
    (widens' : outlook.Widens machine.store.buffers.size wider')
    (steadyOther : Steady code wider' other)
    (alike : ElementsShowAlike code one other data data') :
    FormatAlike code one other data data' := by
  obtain rfl := (steady.agree_iff forced forced').mp agree
  obtain ⟨items, after, _, ended, _, steadyAfter, each⟩ :=
    (steadyOne.elements (forced.widen widens.known)).answer
  obtain ⟨items', after', _, ended', _, steadyAfter', each'⟩ :=
    (steadyOther.elements (forced'.widen widens'.known)).answer
  have texts := steadyAfter.plainTexts_eq steadyAfter' each each' (alike ended ended')
  have many : data.isSequence = data'.isSequence := by
    cases forced <;> cases forced' <;> rfl
  refine ⟨fun template => ⟨_, after, after', ended.fillInto template, ?_⟩,
    fun sequence s => ⟨_, after, after', ended.turnText_elements sequence s, ?_⟩⟩
  · rw [texts]
    exact ended'.fillInto template
  · rw [texts]
    exact ended'.turnText_elements (many ▸ sequence) s

def settledStreams : Machine Unit :=
  streams.updateBuffer 0 fun _ => ⟨#[.ofInt 0, .ofInt 1, .ofInt 2], .done⟩

theorem formatAlike_of_agree_streams :
    let data := Value.lazy ⟨2, 0⟩
    let data' := Value.list [.list [.ofInt 0, .ofInt 1, .ofInt 2]]
    Steady streamCode streamOutlook streams ∧ Agree streamCode streams data data' ∧
      ElementsShowAlike streamCode settledStreams streams data data' ∧
      FormatAlike streamCode settledStreams streams data data' := by
  intro data data'
  have forced : Forced streamOutlook data data' := .lazy rfl (by simpa using forced_integers.lazyFree)
  have forced' : Forced streamOutlook data' data' := .of_lazyFree forced.lazyFree
  have agree : Agree streamCode streams data data' :=
    (steady_streams.agree_iff forced forced').mpr rfl
  have known : streamOutlook (⟨0, 0⟩ : Handle).buffer =
      some (.ending [.ofInt 0, .ofInt 1, .ofInt 2]) := rfl
  obtain ⟨_, after, wider, ended, widens, settled⟩ := steady_streams.realize_all known
  have realized : Machine.Ends streamCode (Action.realize 0 .all) streams (.ok false) settledStreams :=
    ⟨5, rfl⟩
  obtain ⟨_, rfl⟩ := ended.unique realized
  have pulled : Machine.Ends streamCode data.elements settledStreams (.ok [.lazy ⟨0, 0⟩])
      (settledStreams.updateBuffer 2 fun _ => ⟨#[.lazy ⟨0, 0⟩], .done⟩) := ⟨5, rfl⟩
  have alike : ElementsShowAlike streamCode settledStreams streams data data' := by
    intro items items' after after' ended ended'
    obtain ⟨same, rfl⟩ := ended.unique pulled
    obtain ⟨same', rfl⟩ := ended'.unique (Machine.ends_pure.mpr ⟨rfl, rfl⟩)
    obtain rfl := Except.ok.inj same
    obtain rfl := Except.ok.inj same'
    have number (n : Int) {store store' : Store} :
        ShowAlike store store' (.ofInt n) (.ofInt n) := .scalars rfl rfl
    refine .cons (.sequences rfl rfl ⟨fun _ => trivial, fun _ => rfl⟩ ?_) .nil
    exact .cons (number 0) (.cons (number 1) (.cons (number 2) .nil))
  exact ⟨steady_streams, agree, alike, formatAlike_of_agree steady_streams forced forced' agree
    widens settled (.refl _ _) steady_streams alike⟩

def unreadInside : Value := .list [.text "a", .lazy ⟨0, 0⟩]

def readInside : Value := .list [.text "a", .list [.ofInt 0, .ofInt 1, .ofInt 2]]

/-- Equal data gives different texts if a sequence inside it is realized on one side only. -/
theorem unread_shown_inside :
    Steady streamCode streamOutlook streams ∧ Forced streamOutlook unreadInside readInside ∧
      Agree streamCode streams unreadInside readInside ∧
      Machine.Ends streamCode (unreadInside.fillInto "%%") streams (.ok "a[...]") streams ∧
      Machine.Ends streamCode (readInside.fillInto "%%") streams (.ok "a[0, 1, 2]") streams ∧
      ¬ FormatAlike streamCode streams streams unreadInside readInside := by
  have forced : Forced streamOutlook unreadInside readInside :=
    Forced.list_iff.mpr (.cons (.text "a") (.cons forced_integers .nil))
  have agree : Agree streamCode streams unreadInside readInside :=
    (steady_streams.agree_iff forced (.of_lazyFree forced.lazyFree)).mpr rfl
  have unreadText : Template.render "%%"
      ([.text "a", .lazy ⟨0, 0⟩].map streams.store.plainText) = "a[...]" := by decide +kernel
  have readText : Template.render "%%"
      ([.text "a", .list [.ofInt 0, .ofInt 1, .ofInt 2]].map streams.store.plainText) =
        "a[0, 1, 2]" := by decide +kernel
  have unread : Machine.Ends streamCode (unreadInside.fillInto "%%") streams (.ok "a[...]")
      streams := by
    rw [← unreadText]
    exact Machine.Ends.fillInto (Machine.ends_pure.mpr ⟨rfl, rfl⟩) "%%"
  have read : Machine.Ends streamCode (readInside.fillInto "%%") streams (.ok "a[0, 1, 2]")
      streams := by
    rw [← readText]
    exact Machine.Ends.fillInto (Machine.ends_pure.mpr ⟨rfl, rfl⟩) "%%"
  refine ⟨steady_streams, forced, agree, unread, read, fun alike => ?_⟩
  obtain ⟨text, _, _, ended, ended'⟩ := alike.filled "%%"
  have same := (ended.unique unread).1.symm.trans (ended'.unique read).1
  exact absurd (Except.ok.inj same) (by decide)

end Terse
