import Terse.Proofs.Value.Equality
import Terse.Sequence.Keep
import Terse.Sequence.Mold

/-! Operations on values as operations on forms. However the sequences among its operands are stored,
an operation ends as its model on the forms does; so no operation tells values of one form apart. -/
namespace Terse

variable {σ : Type} {code : Code σ} {outlook : Outlook} {before : Machine σ}

theorem isSome_of_rel {α β : Type} {r : α → β → Prop} {x : Option α} {y : Option β}
    (rel : Option.Rel r x y) : x.isSome = y.isSome := by
  cases rel <;> rfl

namespace Steady

open Machine

section Sequences

variable {sequence : Sequence} {forms : List Value}

theorem length_at (steady : Steady code outlook before)
    (takes : sequence.Takes outlook (.ending forms)) :
    Mirrors code outlook before sequence.length (.ok forms.length) fun _ => Eq := by
  cases takes with
  | items each => exact .pure steady each.length_eq
  | lazy known => exact steady.length known

theorem force_at (steady : Steady code outlook before)
    (takes : sequence.Takes outlook (.ending forms)) :
    Mirrors code outlook before sequence.force (.ok forms) fun wider => List.Forall₂ (Forced wider) := by
  cases takes with
  | items each => exact .pure steady each
  | lazy known => exact steady.force known

theorem isEmpty_at (steady : Steady code outlook before)
    (takes : sequence.Takes outlook (.ending forms)) :
    Mirrors code outlook before sequence.isEmpty (.ok forms.isEmpty) fun _ => Eq := by
  refine (steady.get_at takes 0).bind_ok fun _ steady here => .pure steady ?_
  rw [← Option.not_isSome, isSome_of_rel here]
  cases forms <;> rfl

end Sequences

variable {v w t u : Value}

theorem truth (steady : Steady code outlook before) (forced : Forced outlook v t) :
    Mirrors code outlook before v.truth (.ok t.plainTruth) fun _ => Eq := by
  cases forced with
  | number | text | function => exact .pure steady rfl
  | @list items forms length =>
    refine .pure steady ?_
    have empty : items.isEmpty = forms.isEmpty := by
      rw [Bool.eq_iff_iff, List.isEmpty_iff_length_eq_zero, List.isEmpty_iff_length_eq_zero, length]
    rw [Value.plainTruth, empty]
  | @lazy handle forms known =>
    refine (steady.get known 0).bind_ok fun _ steady here => .pure steady ?_
    rw [isSome_of_rel here]
    cases forms <;> rfl

end Steady

def Value.unwrappedForm : Value → Value
  | .list [t] => t
  | t => t

theorem Steady.unwrapped {v t : Value} (steady : Steady code outlook before)
    (forced : Forced outlook v t) :
    Mirrors code outlook before v.unwrapped (.ok t.unwrappedForm) Forced := by
  cases single : t.sequence? with
  | none =>
    obtain rfl := forced.scalar single
    rw [Value.unwrapped, single]
    cases v with
    | list | lazy => simp [Value.sequence?] at single
    | _ => exact .pure steady forced
  | some _ =>
    obtain ⟨forms, rfl⟩ := forced.form_list single
    obtain ⟨sequence, here, takes⟩ := forced.sequence
    rw [Value.unwrapped, here]
    refine (steady.get_at takes 0).bind_ok fun widens steady first => ?_
    cases forms with
    | nil =>
      cases first
      exact .pure steady (forced.widen widens.known)
    | cons head tail =>
      cases first with
      | some forced' =>
      refine (steady.get_at (takes.widen widens.known) 1).bind_ok fun widens' steady second => ?_
      cases tail with
      | nil =>
        cases second
        exact .pure steady (forced'.widen widens'.known)
      | cons _ _ =>
        cases second
        exact .pure steady ((forced.widen widens.known).widen widens'.known)

namespace Steady

open Machine

variable {v t needle n : Value} {forms : List Value}

def sought? (forms : List Value) (n : Value) (index : Nat) : Option Bool :=
  match forms[index]? with
  | none => some false
  | some t => if t.same n then some true else none

theorem exists_sought (forms : List Value) (n : Value) :
    ∃ index, (∀ earlier < index, sought? forms n earlier = none) ∧
      sought? forms n index = some (forms.any (·.same n)) := by
  induction forms with
  | nil => exact ⟨0, by simp, rfl⟩
  | cons t forms ih =>
    cases agree : t.same n with
    | true => exact ⟨0, by simp, by simp [sought?, agree]⟩
    | false =>
      obtain ⟨index, waiting, found⟩ := ih
      refine ⟨index + 1, ?_, by rw [List.any_cons, agree]; exact found⟩
      rintro (_ | earlier) below
      · simp [sought?, agree]
      · exact waiting earlier (by omega)

theorem search (steady : Steady code outlook before) {items : List Value}
    (each : List.Forall₂ (Forced outlook) items forms) (forced : Forced outlook needle n) :
    Mirrors code outlook before (Sequence.search needle items) (.ok (forms.any (·.same n)))
      fun _ => Eq := by
  induction forms generalizing before outlook items with
  | nil =>
    cases each
    exact .pure steady rfl
  | cons t forms ih =>
    cases each with
    | cons head tail =>
    refine (steady.equals head forced).bind_ok fun widens steady same => ?_
    subst same
    cases agree : t.same n with
    | true => exact .pure steady (by simp [agree])
    | false =>
      rw [List.any_cons, agree, Bool.false_or]
      exact ih steady (Forced.widen_all widens.known tail)
        (forced.widen widens.known)

theorem searchAt (steady : Steady code outlook before) {handle : Handle}
    (known : outlook handle.buffer = some (.ending forms)) (forced : Forced outlook needle n)
    (index : Nat) :
    Mirrors code outlook before (handle.searchAt needle index) (.ok (sought? forms n index))
      fun _ => Eq := by
  refine (steady.get known index).bind_ok fun widens steady here => ?_
  rw [sought?]
  have here : Option.Rel (Forced _) _ forms[index]? := here
  generalize forms[index]? = t at here ⊢
  cases here with
  | none => exact .pure steady rfl
  | some forced' =>
    refine (steady.equals forced' (forced.widen widens.known)).bind_ok fun _ steady same => ?_
    subst same
    split
    · rename_i agree
      exact .pure steady (if_pos agree).symm
    · rename_i differ
      exact .pure steady (if_neg differ).symm

theorem contains (steady : Steady code outlook before) {sequence : Sequence}
    (takes : sequence.Takes outlook (.ending forms)) (forced : Forced outlook needle n) :
    Mirrors code outlook before (sequence.contains needle) (.ok (forms.any (·.same n)))
      fun _ => Eq := by
  cases takes with
  | items each => exact steady.search each forced
  | @lazy handle _ known =>
    have each {index : Nat} {wider : Outlook} {machine : Machine σ}
        (widens : outlook.Widens before.store.buffers.size wider)
        (steady : Steady code wider machine) :
        Mirrors code wider machine (handle.searchAt needle index) (.ok (sought? forms n index))
          fun _ => Eq :=
      steady.searchAt (widens.known known) (forced.widen widens.known) index
    obtain ⟨index, waiting, found⟩ := exists_sought forms n
    obtain ⟨after, wider, settled, widens, steady'⟩ := steady.settle each
      (fun earlier below => by rw [Nat.zero_add]; exact waiting earlier below)
      (by rw [Nat.zero_add]; exact found)
    exact ⟨_, after, wider, ends_search.mpr settled, widens, steady', .ok rfl⟩

end Steady

namespace Shape

mutual

def fillForm : Value → Cycle Value → Except Failure (Value × Cycle Value)
  | .list slots, content => do
    let (items, content) ← fillForms slots content
    return (.list items, content)
  | _, content =>
    match content.next? with
    | some filled => .ok filled
    | none => .error .emptyContent

def fillForms : List Value → Cycle Value → Except Failure (List Value × Cycle Value)
  | [], content => .ok ([], content)
  | slot :: slots, content => do
    let (item, content) ← fillForm slot content
    let (items, content) ← fillForms slots content
    return (item :: items, content)

end

theorem fillForm_leaf {t : Value} (single : ∀ slots, t ≠ .list slots) (content : Cycle Value) :
    fillForm t content =
      match content.next? with
      | some filled => .ok filled
      | none => .error .emptyContent := by
  cases t with
  | list slots => exact absurd rfl (single slots)
  | _ => simp [fillForm]

end Shape

structure Cycle.Comes (outlook : Outlook) (content forms : Cycle Value) : Prop where
  items : List.Forall₂ (Forced outlook) content.items forms.items
  position : content.position = forms.position

namespace Cycle.Comes

variable {wider : Outlook} {content forms : Cycle Value}

theorem widen (comes : content.Comes outlook forms)
    (known : ∀ {id course}, outlook id = some course → wider id = some course) :
    content.Comes wider forms :=
  ⟨Forced.widen_all known comes.items, comes.position⟩

theorem next (comes : content.Comes outlook forms) :
    Option.Rel (fun filled form => Forced outlook filled.1 form.1 ∧ filled.2.Comes outlook form.2)
      content.next? forms.next? := by
  unfold Cycle.next?
  rw [comes.position, comes.items.length_eq]
  have here := Forced.getElem?_rel comes.items (forms.position % forms.items.length)
  generalize content.items[forms.position % forms.items.length]? = item,
    forms.items[forms.position % forms.items.length]? = form at here ⊢
  cases here with
  | none => exact .none
  | some forced => exact .some ⟨forced, comes.items, rfl⟩

end Cycle.Comes

def Fills (code : Code σ) (t : Value) : Prop :=
  ∀ {outlook : Outlook} {before : Machine σ} {slot : Value} {content forms : Cycle Value},
    Steady code outlook before → Forced outlook slot t → content.Comes outlook forms →
      Mirrors code outlook before (Shape.fillSlot slot content) (Shape.fillForm t forms)
        fun wider filled form => Forced wider filled.1 form.1 ∧ filled.2.Comes wider form.2

theorem fills_all {shapes : List Value} (each : ∀ t ∈ shapes, Fills code t) {slots : List Value}
    {content forms : Cycle Value} (steady : Steady code outlook before)
    (forced : List.Forall₂ (Forced outlook) slots shapes) (comes : content.Comes outlook forms) :
    Mirrors code outlook before (Shape.fillSlots slots content) (Shape.fillForms shapes forms)
      fun wider filled form =>
        List.Forall₂ (Forced wider) filled.1 form.1 ∧ filled.2.Comes wider form.2 := by
  induction shapes generalizing before outlook slots content forms with
  | nil =>
    cases forced
    exact .pure steady ⟨.nil, comes⟩
  | cons t shapes ih =>
    cases forced with
    | cons head tail =>
    refine (each t (by simp) steady head comes).bind fun _ widens steady filled => ?_
    refine (ih (fun t mem => each t (by simp [mem])) steady
      (Forced.widen_all widens.known tail) filled.2).bind
        fun _ widens' steady others => ?_
    exact .pure steady ⟨.cons (filled.1.widen widens'.known) others.1, others.2⟩

theorem Steady.fill {shapes slots : List Value} {content forms : Cycle Value}
    (steady : Steady code outlook before) (each : ∀ t ∈ shapes, Fills code t)
    (forced : List.Forall₂ (Forced outlook) slots shapes) (comes : content.Comes outlook forms) :
    Mirrors code outlook before (Action.request (.fill slots content)) (Shape.fillForms shapes forms)
      fun wider filled form =>
        List.Forall₂ (Forced wider) filled.1 form.1 ∧ filled.2.Comes wider form.2 := by
  obtain ⟨result, after, wider, ended, known⟩ := fills_all each steady forced comes
  exact ⟨result, after, wider, Machine.ends_fill.mpr ended, known⟩

theorem fills_scalar (code : Code σ) {t : Value} (single : t.sequence? = none) : Fills code t := by
  intro outlook before slot content forms steady forced comes
  obtain rfl := forced.scalar single
  have leaf (slots : List Value) : slot ≠ .list slots := by
    rintro rfl
    simp [Value.sequence?] at single
  rw [Shape.fillSlot, single, Shape.fillForm_leaf leaf]
  have next := comes.next
  generalize content.next? = filled, forms.next? = form at next ⊢
  cases next with
  | none => exact .fail steady rfl
  | some filled => exact .pure steady filled

theorem fills_of_lazyFree (code : Code σ) {t : Value} (free : t.LazyFree) : Fills code t := by
  induction free with
  | @list shapes _ ih =>
    intro outlook before slot content forms steady forced comes
    obtain ⟨sequence, here, takes⟩ := forced.sequence
    rw [Shape.fillSlot, here]
    refine (steady.force_at takes).bind_ok fun widens steady each => ?_
    refine (steady.fill ih each (comes.widen widens.known)).bind fun _ _ steady filled =>
      .pure steady ?_
    exact ⟨Forced.list_iff.mpr filled.1, filled.2⟩
  | _ => exact fills_scalar code rfl

def Value.elements (v : Value) : Action σ (List Value) :=
  match v.sequence? with
  | some sequence => sequence.force
  | none => pure [v]

theorem Value.elements_bind {α : Type} {f : List Value → Action σ α} (v : Value) :
    v.elements >>= f =
      match v.sequence? with
      | some sequence => sequence.force >>= f
      | none => pure [v] >>= f := by
  rw [elements]
  cases v.sequence? <;> rfl

def Value.elementsForm : Value → List Value
  | .list items => items
  | t => [t]

theorem Steady.elements {v t : Value} (steady : Steady code outlook before)
    (forced : Forced outlook v t) :
    Mirrors code outlook before v.elements (.ok t.elementsForm)
      fun wider => List.Forall₂ (Forced wider) := by
  cases single : t.sequence? with
  | none =>
    obtain rfl := forced.scalar single
    rw [Value.elements, single]
    cases v with
    | list => simp [Value.sequence?] at single
    | _ => exact .pure steady (.cons forced .nil)
  | some _ =>
    obtain ⟨forms, rfl⟩ := forced.form_list single
    obtain ⟨sequence, here, takes⟩ := forced.sequence
    rw [Value.elements, here]
    exact steady.force_at takes

theorem Value.mold_of_sequence {content shape : Value} {sequence : Sequence}
    (here : shape.sequence? = some sequence) :
    (content.mold shape : Action σ Value) = (do
      let items ← content.elements
      let slots ← sequence.force
      let (molded, _) ← Action.request (.fill slots (.ofList items))
      return .list molded) := by
  rw [mold, here]
  exact (elements_bind content).symm

/-- Content in the form of a shape, with forms only. -/
def Value.moldForm (content shape : Value) : Except Failure Value :=
  match shape with
  | .list slots => do
    let (molded, _) ← Shape.fillForms slots (.ofList content.elementsForm)
    return .list molded
  | shape => .error (.shapeNotList shape.type)

theorem Steady.mold {content shape c s : Value} (steady : Steady code outlook before)
    (forced : Forced outlook content c) (forced' : Forced outlook shape s) :
    Mirrors code outlook before (content.mold shape) (c.moldForm s) Forced := by
  cases single : s.sequence? with
  | none =>
    obtain rfl := forced'.scalar single
    rw [Value.mold, single]
    cases shape with
    | list => simp [Value.sequence?] at single
    | _ => exact .fail steady rfl
  | some _ =>
    obtain ⟨slots, rfl⟩ := forced'.form_list single
    obtain ⟨sequence, here, takes⟩ := forced'.sequence
    rw [Value.mold_of_sequence here]
    refine (steady.elements forced).bind_ok fun widens steady items => ?_
    refine (steady.force_at (takes.widen widens.known)).bind_ok fun widens' steady shapes => ?_
    have comes : Cycle.Comes _ (.ofList _) (.ofList c.elementsForm) :=
      ⟨Forced.widen_all widens'.known items, rfl⟩
    have free (t : Value) (mem : t ∈ slots) : Fills code t := by
      cases forced'.lazyFree with
      | list each => exact fills_of_lazyFree code (each t mem)
    exact (steady.fill free shapes comes).bind fun _ _ steady filled =>
      .pure steady (Forced.list_iff.mpr filled.1)

/-! Keeping what occurs in another value. -/

namespace Decimal

theorem lazyFree_items {q : Rat} {t : Value} (mem : t ∈ items q) : t.LazyFree := by
  obtain ⟨c, _, rfl⟩ := List.mem_map.mp mem
  rw [itemOf]
  split
  · exact .number _
  · exact .text _

theorem forced_items (outlook : Outlook) (q : Rat) :
    List.Forall₂ (Forced outlook) (items q) (items q) :=
  List.forall₂_same.mpr fun _ mem => .of_lazyFree (lazyFree_items mem)

end Decimal

namespace Value

def occursForm (item needle : Value) : Except Failure Bool :=
  match needle with
  | .text s =>
    match item with
    | .text t => .ok (Text.occursWithin t.toList s.toList)
    | _ => .ok false
  | .list forms => .ok (forms.any (·.same item))
  | .number q => .ok ((Decimal.items q).any (·.same item))
  | _ => .error .functionMembership

def keepBy {α : Type} (passes : α → Except Failure Bool) : List α → Except Failure (List α)
  | [] => .ok []
  | a :: rest => do
    let here ← passes a
    let kept ← keepBy passes rest
    return if here then a :: kept else kept

/-- The form as something to go through, numbers as their digits. -/
def viewForm : Value → Except Failure Value
  | .number q => .ok (.list (Decimal.items q))
  | .function f => .error (.notIterable (Value.function f).type)
  | t => .ok t

def keepForm (haystack needle : Value) : Except Failure Value :=
  match haystack with
  | .text s => do
    let kept ← keepBy (fun g => occursForm (.text g) needle) (Text.graphemes s)
    return .text (String.join kept)
  | haystack => do
    let view ← haystack.viewForm
    let kept ← keepBy (occursForm · needle) view.elementsForm
    return .list kept

theorem keep_of_type {haystack needle : Value} (other : haystack.type ≠ .text) :
    (haystack.keep needle : Action σ Value) = (do
      let view ← haystack.view (some .digits)
      let items ← view.elements
      let kept ← keepItems needle items
      return .list kept) := by
  cases haystack with
  | text => simp [type] at other
  | _ => exact bind_congr fun view => (elements_bind view).symm

theorem keepForm_of_type {haystack needle : Value} (other : haystack.type ≠ .text) :
    haystack.keepForm needle = (do
      let view ← haystack.viewForm
      let kept ← keepBy (occursForm · needle) view.elementsForm
      return .list kept) := by
  cases haystack with
  | text => simp [type] at other
  | _ => rfl

end Value

namespace Steady

variable {item needle i n : Value}

theorem occursIn (steady : Steady code outlook before) (forced : Forced outlook item i)
    (forced' : Forced outlook needle n) :
    Mirrors code outlook before (item.occursIn needle) (i.occursForm n) fun _ => Eq := by
  cases forced' with
  | text s =>
    cases forced with
    | _ => exact .pure steady rfl
  | number q =>
    exact steady.contains (.items (Decimal.forced_items outlook q)) forced
  | function f => exact .fail steady rfl
  | list length each => exact steady.contains (.items (Forced.list_iff.mp (.list length each))) forced
  | lazy known => exact steady.contains (.lazy known) forced

theorem keepItems (steady : Steady code outlook before) {items forms : List Value}
    (each : List.Forall₂ (Forced outlook) items forms) (forced : Forced outlook needle n) :
    Mirrors code outlook before (Value.keepItems needle items) (Value.keepBy (·.occursForm n) forms)
      fun wider => List.Forall₂ (Forced wider) := by
  induction forms generalizing before outlook items with
  | nil =>
    cases each
    exact .pure steady .nil
  | cons t forms ih =>
    cases each with
    | cons head tail =>
      refine (steady.occursIn head forced).bind fun _ widens steady same => ?_
      subst same
      refine (ih steady (Forced.widen_all widens.known tail)
        (forced.widen widens.known)).bind fun _ widens' steady kept => ?_
      refine .pure steady ?_
      split
      · exact .cons ((head.widen widens.known).widen widens'.known) kept
      · exact kept

theorem keepClusters (steady : Steady code outlook before) (clusters : List String)
    (forced : Forced outlook needle n) :
    Mirrors code outlook before (Value.keepClusters needle clusters)
      (Value.keepBy (fun g => (Value.text g).occursForm n) clusters) fun _ => Eq := by
  induction clusters generalizing before outlook with
  | nil => exact .pure steady rfl
  | cons g clusters ih =>
    refine (steady.occursIn (.text g) forced).bind fun _ widens steady same => ?_
    subst same
    refine (ih steady (forced.widen widens.known)).bind fun _ _ steady same => ?_
    subst same
    exact .pure steady rfl

theorem view (steady : Steady code outlook before) (forced : Forced outlook item i) :
    Mirrors code outlook before (item.view (some .digits)) i.viewForm Forced := by
  cases forced with
  | number q =>
    have session : Mirrors code outlook before Action.session (.ok before.session) fun _ => Eq :=
      ⟨_, before, outlook, ⟨1, rfl⟩, .refl _ _, steady, .ok rfl⟩
    exact session.bind_ok fun {wider _ _} _ steady _ =>
      .pure steady (Forced.list_iff.mpr (Decimal.forced_items wider q))
  | text s => exact .pure steady (.text s)
  | function f => exact .fail steady rfl
  | list length each => exact .pure steady (.list length each)
  | lazy known free => exact .pure steady (.lazy known free)

theorem keep {haystack h : Value} (steady : Steady code outlook before)
    (forced : Forced outlook haystack h) (forced' : Forced outlook needle n) :
    Mirrors code outlook before (haystack.keep needle) (h.keepForm n) Forced := by
  by_cases text : haystack.type = .text
  · cases forced with
    | text s =>
      refine (steady.keepClusters (Text.graphemes s) forced').bind fun _ _ steady same => ?_
      subst same
      exact .pure steady (.text _)
    | _ => simp [Value.type] at text
  · have other : h.type ≠ .text := by
      cases forced <;> simp_all [Value.type]
    rw [Value.keep_of_type text, Value.keepForm_of_type other]
    refine (steady.view forced).bind fun _ widens steady view => ?_
    refine (steady.elements view).bind_ok fun widens' steady each => ?_
    refine (steady.keepItems each ((forced'.widen widens.known).widen widens'.known)).bind
      fun _ _ steady kept => ?_
    exact .pure steady (Forced.list_iff.mpr kept)

end Steady

end Terse
