import Terse.Proofs.Value.Forms
import Terse.Proofs.Value.Rows

namespace Terse

open Machine

variable {σ α β : Type} {code : Code σ} {outlook : Outlook} {machine : Machine σ}

/-- Run from this machine, one after the other, both actions answer, and so related, or both fail in the
same kind. -/
def EndAlike (code : Code σ) (machine : Machine σ) (same : Machine σ → α → α → Prop)
    (one other : Action σ α) : Prop :=
  ∃ result result' between after, Ends code one machine result between ∧
    Ends code other between result' after ∧ SameEnd (same after) result result'

structure InterchangeableSequences (code : Code σ) (outlook : Outlook) (machine : Machine σ)
    (one other : Sequence) : Prop where
  length : EndAlike code machine (fun _ => Eq) one.length other.length
  isEmpty : EndAlike code machine (fun _ => Eq) one.isEmpty other.isEmpty
  get : ∀ index,
    EndAlike code machine (fun last => Option.Rel (Agree code last)) (one.get index) (other.get index)
  contains : ∀ {needle n}, Forced outlook needle n →
    EndAlike code machine (fun _ => Eq) (one.contains needle) (other.contains needle)
  zipped : ∀ {front back : List Sequence} {forms forms'}, SourcesTake outlook front forms →
    SourcesTake outlook back forms' →
    EndAlike code machine (Agree code) (Sequence.zipped (front ++ one :: back))
      (Sequence.zipped (front ++ other :: back))

/-- What the operations on values do with two of them, the other operands being values and sequences
that come to their forms. -/
structure Interchangeable (code : Code σ) (outlook : Outlook) (machine : Machine σ)
    (v w : Value) : Prop where
  truth : EndAlike code machine (fun _ => Eq) v.truth w.truth
  isSequence : v.isSequence = w.isSequence
  sequences : ∀ {one other}, v.sequence? = some one → w.sequence? = some other →
    InterchangeableSequences code outlook machine one other
  sought : ∀ {sequence : Sequence} {forms}, sequence.Takes outlook (.ending forms) →
    EndAlike code machine (fun _ => Eq) (sequence.contains v) (sequence.contains w)
  equalsThird : ∀ {x s}, Forced outlook x s →
    EndAlike code machine (fun _ => Eq) (v.equals x) (w.equals x) ∧
      EndAlike code machine (fun _ => Eq) (x.equals v) (x.equals w)
  unwrapped : EndAlike code machine (Agree code) v.unwrapped w.unwrapped
  content : ∀ {shape s}, Forced outlook shape s →
    EndAlike code machine (Agree code) (v.mold shape) (w.mold shape)
  shape : ∀ {content c}, Forced outlook content c →
    EndAlike code machine (Agree code) (content.mold v) (content.mold w)
  haystack : ∀ {needle n}, Forced outlook needle n →
    EndAlike code machine (Agree code) (v.keep needle) (w.keep needle)
  needle : ∀ {haystack h}, Forced outlook haystack h →
    EndAlike code machine (Agree code) (haystack.keep v) (haystack.keep w)

section EndAlike

variable {like : Outlook → α → β → Prop} {same : Machine σ → α → α → Prop} {model : Except Failure β}

theorem Mirrors.alike {one other : Action σ α} (first : Mirrors code outlook machine one model like)
    (second : ∀ {wider after}, outlook.Widens machine.store.buffers.size wider →
      Steady code wider after → Mirrors code wider after other model like)
    (joined : ∀ {wider widest last a a' b},
      (∀ {id course}, wider id = some course → widest id = some course) →
      Steady code widest last → like wider a b → like widest a' b → same last a a') :
    EndAlike code machine same one other := by
  -- The second runs where the first has left the machine, which may know more by then.
  obtain ⟨result, between, wider, ended, widens, steady, firstEnd⟩ := first
  obtain ⟨result', after, widest, ended', widens', steady', secondEnd⟩ := second widens steady
  refine ⟨result, result', between, after, ended, ended', ?_⟩
  cases firstEnd with
  | error kind =>
    cases secondEnd with
    | error kind' => exact .error (kind.trans kind'.symm)
  | ok alike =>
    cases secondEnd with
    | ok alike' => exact .ok (joined widens'.known steady' alike alike')

theorem Mirrors.alike_eq {one other : Action σ β}
    (first : Mirrors code outlook machine one model fun _ => Eq)
    (second : ∀ {wider after}, outlook.Widens machine.store.buffers.size wider →
      Steady code wider after → Mirrors code wider after other model fun _ => Eq) :
    EndAlike code machine (fun _ => Eq) one other :=
  first.alike second fun _ _ here there => here.trans there.symm

theorem Mirrors.alike_value {one other : Action σ Value} {model : Except Failure Value}
    (first : Mirrors code outlook machine one model Forced)
    (second : ∀ {wider after}, outlook.Widens machine.store.buffers.size wider →
      Steady code wider after → Mirrors code wider after other model Forced) :
    EndAlike code machine (Agree code) one other :=
  first.alike second fun known steady forced forced' =>
    (steady.agree_iff (forced.widen known) forced').mpr rfl

theorem Mirrors.alike_item {one other : Action σ (Option Value)} {model : Except Failure (Option Value)}
    (first : Mirrors code outlook machine one model fun wider => Option.Rel (Forced wider))
    (second : ∀ {wider after}, outlook.Widens machine.store.buffers.size wider →
      Steady code wider after → Mirrors code wider after other model
        fun wider => Option.Rel (Forced wider)) :
    EndAlike code machine (fun last => Option.Rel (Agree code last)) one other := by
  refine first.alike second fun known steady here there => ?_
  cases here with
  | none =>
    cases there
    exact .none
  | some forced =>
    cases there with
    | some forced' => exact .some ((steady.agree_iff (forced.widen known) forced').mpr rfl)

end EndAlike

theorem interchangeable_sequences {one other : Sequence} {forms : List Value}
    (steady : Steady code outlook machine) (takes : one.Takes outlook (.ending forms))
    (takes' : other.Takes outlook (.ending forms)) :
    InterchangeableSequences code outlook machine one other where
  length := (steady.length_at takes).alike_eq fun widens steady =>
    steady.length_at (takes'.widen widens.known)
  isEmpty := (steady.isEmpty_at takes).alike_eq fun widens steady =>
    steady.isEmpty_at (takes'.widen widens.known)
  get index := (steady.get_at takes index).alike_item fun widens steady =>
    steady.get_at (takes'.widen widens.known) index
  contains forced := (steady.contains takes forced).alike_eq fun widens steady =>
    steady.contains (takes'.widen widens.known) (forced.widen widens.known)
  zipped := by
    intro front back frontForms backForms before behind
    have sources {wider : Outlook} {sequence : Sequence}
        (known : ∀ {id course}, outlook id = some course → wider id = some course)
        (takes : sequence.Takes outlook (.ending forms)) :
        SourcesTake wider (front ++ sequence :: back) (frontForms ++ forms :: backForms) :=
      List.rel_append (before.widen known) (.cons (takes.widen known) (behind.widen known))
    exact (steady.zipped (sources id takes)).alike_value fun widens steady =>
      steady.zipped (sources widens.known takes')

theorem Forced.isSequence {v t : Value} (forced : Forced outlook v t) :
    v.isSequence = t.isSequence := by
  cases forced <;> rfl

theorem Forced.takes {v t : Value} {sequence : Sequence} (forced : Forced outlook v t)
    (here : v.sequence? = some sequence) :
    ∃ forms, t = .list forms ∧ sequence.Takes outlook (.ending forms) := by
  cases forced with
  | list length each =>
    obtain rfl := Option.some.inj here
    exact ⟨_, rfl, .items (Forced.list_iff.mp (.list length each))⟩
  | lazy known =>
    obtain rfl := Option.some.inj here
    exact ⟨_, rfl, .lazy known⟩
  | _ => simp [Value.sequence?] at here

/-- Values that a comparison finds equal cannot be told apart by any of these operations. -/
theorem interchangeable_of_agree {v w t u : Value} (steady : Steady code outlook machine)
    (forced : Forced outlook v t) (forced' : Forced outlook w u) (agree : Agree code machine v w) :
    Interchangeable code outlook machine v w := by
  obtain rfl := (steady.agree_iff forced forced').mp agree
  exact {
    truth := (steady.truth forced).alike_eq fun widens steady =>
      steady.truth (forced'.widen widens.known)
    isSequence := forced.isSequence.trans forced'.isSequence.symm
    sequences := by
      intro one other here there
      obtain ⟨forms, rfl, takes⟩ := forced.takes here
      obtain ⟨_, same, takes'⟩ := forced'.takes there
      obtain rfl := Value.list.inj same
      exact interchangeable_sequences steady takes takes'
    sought := fun takes => (steady.contains takes forced).alike_eq fun widens steady =>
      steady.contains (takes.widen widens.known) (forced'.widen widens.known)
    equalsThird := fun third =>
      ⟨(steady.equals forced third).alike_eq fun widens steady =>
        steady.equals (forced'.widen widens.known) (third.widen widens.known),
      (steady.equals third forced).alike_eq fun widens steady =>
        steady.equals (third.widen widens.known) (forced'.widen widens.known)⟩
    unwrapped := (steady.unwrapped forced).alike_value fun widens steady =>
      steady.unwrapped (forced'.widen widens.known)
    content := fun shape => (steady.mold forced shape).alike_value fun widens steady =>
      steady.mold (forced'.widen widens.known) (shape.widen widens.known)
    shape := fun content => (steady.mold content forced).alike_value fun widens steady =>
      steady.mold (content.widen widens.known) (forced'.widen widens.known)
    haystack := fun needle => (steady.keep forced needle).alike_value fun widens steady =>
      steady.keep (forced'.widen widens.known) (needle.widen widens.known)
    needle := fun haystack => (steady.keep haystack forced).alike_value fun widens steady =>
      steady.keep (haystack.widen widens.known) (forced'.widen widens.known) }

theorem interchangeable_of_agree_streams :
    Steady streamCode streamOutlook streams ∧ Agree streamCode streams nestedStreams nestedLists ∧
      Interchangeable streamCode streamOutlook streams nestedStreams nestedLists := by
  have agree : Agree streamCode streams nestedStreams nestedLists :=
    (steady_streams.agree_iff forced_nestedStreams forced_nestedLists).mpr rfl
  exact ⟨steady_streams, agree,
    interchangeable_of_agree steady_streams forced_nestedStreams forced_nestedLists agree⟩

end Terse
