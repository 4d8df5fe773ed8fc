import Mathlib.Data.List.Forall2
import Terse.Proofs.Lazy.Reading
import Terse.Proofs.Value.LazyFree

/-! Lazy sequences whose pulls never fail and touch nothing but their own buffers. What their elements
come to is settled before any is realized, so it can be stated apart from the store; reading them in
any order and to any extent realizes just that. -/
namespace Terse

variable {σ : Type}

/-- What the elements of a sequence come to, one after another: values without lazy sequences. -/
inductive Course where
  | ending (forms : List Value)
  | unending (form : Nat → Value)

def Course.at? : Course → Nat → Option Value
  | ending forms, index => forms[index]?
  | unending form, index => some (form index)

abbrev Outlook := Nat → Option Course

/-- Another outlook knows all that this one does, and nothing more of this many buffers. -/
structure Outlook.Widens (size : Nat) (outlook wider : Outlook) : Prop where
  known : ∀ {id course}, outlook id = some course → wider id = some course
  old : ∀ id < size, wider id = outlook id

/-- Forced at every depth, the value is this one. -/
inductive Forced (outlook : Outlook) : Value → Value → Prop where
  | number (q : Rat) : Forced outlook (.number q) (.number q)
  | text (s : String) : Forced outlook (.text s) (.text s)
  | function (f : Callable) : Forced outlook (.function f) (.function f)
  | list {items forms : List Value} : items.length = forms.length →
      (∀ i (h : i < items.length) (h' : i < forms.length),
        Forced outlook (items.get ⟨i, h⟩) (forms.get ⟨i, h'⟩)) →
      Forced outlook (.list items) (.list forms)
  | lazy {handle : Handle} {forms : List Value} :
      outlook handle.buffer = some (.ending forms) → (∀ form ∈ forms, form.LazyFree) →
      Forced outlook (.lazy handle) (.list forms)

theorem Course.at?_none_of_le {course : Course} {index later : Nat} (le : index ≤ later)
    (none_here : course.at? index = none) : course.at? later = none := by
  cases course with
  | ending forms =>
    have behind := List.getElem?_eq_none_iff.mp none_here
    exact List.getElem?_eq_none_iff.mpr (by omega)
  | unending form => simp [at?] at none_here

namespace Outlook.Widens

variable {outlook wider widest : Outlook}

theorem refl (size : Nat) (outlook : Outlook) : outlook.Widens size outlook :=
  ⟨id, fun _ _ => rfl⟩

theorem trans {size more : Nat} (one : outlook.Widens size wider) (le : size ≤ more)
    (two : wider.Widens more widest) : outlook.Widens size widest where
  known here := two.known (one.known here)
  old id inside := (two.old id (by omega)).trans (one.old id inside)

end Outlook.Widens

namespace Forced

variable {outlook wider : Outlook} {v t : Value}

theorem list_iff {items forms : List Value} :
    Forced outlook (.list items) (.list forms) ↔ List.Forall₂ (Forced outlook) items forms := by
  rw [List.forall₂_iff_get]
  constructor
  · rintro (_ | _ | _ | ⟨length, each⟩)
    exact ⟨length, each⟩
  · rintro ⟨length, each⟩
    exact .list length each

theorem lazyFree (forced : Forced outlook v t) : t.LazyFree := by
  induction forced with
  | number q => exact .number q
  | text s => exact .text s
  | function f => exact .function f
  | lazy _ free => exact .list free
  | @list items forms length _ ih =>
    refine .list fun form mem => ?_
    obtain ⟨⟨i, inside⟩, rfl⟩ := List.get_of_mem mem
    exact ih i (by omega) inside

theorem of_lazyFree (free : t.LazyFree) : Forced outlook t t := by
  induction free with
  | number q => exact .number q
  | text s => exact .text s
  | function f => exact .function f
  | list _ ih => exact list_iff.mpr (List.forall₂_same.mpr ih)

theorem widen (known : ∀ {id course}, outlook id = some course → wider id = some course)
    (forced : Forced outlook v t) : Forced wider v t := by
  induction forced with
  | number q => exact .number q
  | text s => exact .text s
  | function f => exact .function f
  | lazy here free => exact .lazy (known here) free
  | list length _ ih => exact .list length ih

theorem widen_option (known : ∀ {id course}, outlook id = some course → wider id = some course)
    {item form : Option Value} (rel : Option.Rel (Forced outlook) item form) :
    Option.Rel (Forced wider) item form := by
  cases rel with
  | none => exact .none
  | some forced => exact .some (forced.widen known)

theorem widen_all (known : ∀ {id course}, outlook id = some course → wider id = some course)
    {items forms : List Value} (each : List.Forall₂ (Forced outlook) items forms) :
    List.Forall₂ (Forced wider) items forms :=
  each.imp fun _ _ forced => forced.widen known

end Forced

/-- What is realized of a buffer is the beginning of this course, and all of it if the buffer is done. -/
structure Buffer.Fits (outlook : Outlook) (course : Course) (buffer : Buffer) : Prop where
  realized : ∀ {i item}, buffer.realized[i]? = some item →
    ∃ form, course.at? i = some form ∧ Forced outlook item form
  rests : buffer.state ≠ .running
  done : buffer.state = .done → course.at? buffer.realized.size = none

/-- A pull that gives a result, leaves all that was there as it was, and adds no other known sequences
than such as have this content. -/
structure CleanPull (code : Code σ) (ground : Session → σ → Prop)
    (content : Outlook → Nat → Buffer → Prop) (outlook : Outlook) (generator : Generator)
    (before : Machine σ) (result : Option (Value × Generator)) (after : Machine σ)
    (wider : Outlook) : Prop where
  ends : Machine.Ends code generator.next before (.ok result) after
  ground : ground after.session after.host
  widens : outlook.Widens before.store.buffers.size wider
  kept : ∀ id < before.store.buffers.size, after.store.buffer id = before.store.buffer id
  added : ∀ {id course}, before.store.buffers.size ≤ id → wider id = some course →
    id < after.store.buffers.size ∧ content wider id (after.store.buffer id)

/-- Buffers of this content go along their courses: in whatever machine on this ground they are pulled,
the pull is clean and leaves a buffer of this content. -/
structure Assurance (code : Code σ) (ground : Session → σ → Prop)
    (content : Outlook → Nat → Buffer → Prop) : Prop where
  fits : ∀ {outlook id course buffer}, content outlook id buffer → outlook id = some course →
    buffer.Fits outlook course
  widen : ∀ {outlook wider : Outlook} {id buffer}, content outlook id buffer →
    (∀ {id course}, outlook id = some course → wider id = some course) → content wider id buffer
  pulled : ∀ {outlook id buffer generator} {machine : Machine σ}, content outlook id buffer →
    (outlook id).isSome → buffer.state = .ready generator →
    (∀ {id}, (outlook id).isSome → id < machine.store.buffers.size) →
    machine.store.buffer id = buffer.withState .running → ground machine.session machine.host →
    ∃ result after wider,
      CleanPull code ground content outlook generator machine result after wider ∧
        content wider id (buffer.afterPull generator (.ok result))

/-- In this machine the known sequences go along their courses, whatever is read of them. -/
def Steady (code : Code σ) (outlook : Outlook) (machine : Machine σ) : Prop :=
  ∃ ground content, Assurance code ground content ∧ ground machine.session machine.host ∧
    ∀ {id}, (outlook id).isSome →
      id < machine.store.buffers.size ∧ content outlook id (machine.store.buffer id)

namespace Machine

variable {code : Code σ} {before after : Machine σ}

theorem size_updateBuffer (machine : Machine σ) (id : Nat) (f : Buffer → Buffer) :
    (machine.updateBuffer id f).store.buffers.size = machine.store.buffers.size :=
  Store.size_update _ _ _

theorem Ends.size_le {α : Type} {action : Action σ α} {result : Except Failure α}
    (ended : Ends code action before result after) :
    before.store.buffers.size ≤ after.store.buffers.size :=
  let ⟨_, grows⟩ := ended.grows
  grows.size_le

theorem Ends.size_le_settled {α : Type} {action : Action σ α} {result : Except Failure α} {id : Nat}
    {begin settle : Buffer → Buffer}
    (ended : Ends code action (before.updateBuffer id begin) result after) :
    before.store.buffers.size ≤ (after.updateBuffer id settle).store.buffers.size := by
  rw [size_updateBuffer, ← size_updateBuffer before id begin]
  exact ended.size_le

end Machine

namespace Steady

open Machine

variable {code : Code σ} {outlook : Outlook} {before : Machine σ} {id : Nat} {course : Course}

theorem inside (steady : Steady code outlook before) (known : outlook id = some course) :
    id < before.store.buffers.size := by
  obtain ⟨ground, content, _, _, each⟩ := steady
  exact (each (by simp [known])).1

theorem fits (steady : Steady code outlook before) (known : outlook id = some course) :
    (before.store.buffer id).Fits outlook course := by
  obtain ⟨ground, content, assurance, _, each⟩ := steady
  exact assurance.fits (each (by simp [known])).2 known

theorem pull (steady : Steady code outlook before) (known : outlook id = some course)
    {generator : Generator} (state : (before.store.buffer id).state = .ready generator) :
    ∃ result after wider,
      Ends code generator.next (before.updateBuffer id (·.withState .running)) (.ok result) after ∧
      outlook.Widens before.store.buffers.size wider ∧
      Steady code wider (after.updateBuffer id (·.afterPull generator (.ok result))) := by
  obtain ⟨ground, content, assurance, grounded, each⟩ := steady
  have isKnown : (outlook id).isSome := by simp [known]
  obtain ⟨inside, own⟩ := each isKnown
  have size := size_updateBuffer before id (·.withState .running)
  obtain ⟨result, after, wider, clean, own'⟩ := assurance.pulled own isKnown state
    (fun known => size ▸ (each known).1) (buffer_begun state) grounded
  have widens := clean.widens
  rw [size] at widens
  have le : before.store.buffers.size ≤ after.store.buffers.size := size ▸ clean.ends.size_le
  refine ⟨result, after, wider, clean.ends, widens, ground, content, assurance, clean.ground, ?_⟩
  -- Known afterwards are the pulled sequence, others that were there before, and what the pull added.
  intro other isKnown
  rw [size_updateBuffer]
  by_cases old : other < before.store.buffers.size
  · refine ⟨by omega, ?_⟩
    by_cases same : other = id
    · subst same
      rw [clean.ends.buffer_settled state]
      cases result <;> exact own'
    · have settled : (after.updateBuffer id (·.afterPull generator (.ok result))).store.buffer
          other = after.store.buffer other := Store.buffer_update_of_ne same _
      have begun : (before.updateBuffer id (·.withState .running)).store.buffer other =
          before.store.buffer other := Store.buffer_update_of_ne same _
      rw [settled, clean.kept other (by omega), begun]
      rw [widens.old other old] at isKnown
      exact assurance.widen (each isKnown).2 widens.known
  · obtain ⟨course, here⟩ := Option.isSome_iff_exists.mp isKnown
    obtain ⟨inside', new⟩ := clean.added (by omega) here
    have settled : (after.updateBuffer id (·.afterPull generator (.ok result))).store.buffer
        other = after.store.buffer other := Store.buffer_update_of_ne (by omega) _
    rw [settled]
    exact ⟨inside', new⟩

/-- Realizing a known sequence comes to an end if the demand is met or the course over before some
bound. -/
theorem realize (steady : Steady code outlook before) (known : outlook id = some course)
    (demand : Demand) (bound : Nat) (bounded : ∀ size, demand.isMet size = false →
      (course.at? size).isSome → size < bound) :
    ∃ reached after wider, Ends code (Action.realize id demand) before (.ok reached) after ∧
      outlook.Widens before.store.buffers.size wider ∧ Steady code wider after := by
  -- The induction is on the number of elements that may be missing still.
  generalize missing : bound - (before.store.buffer id).realized.size = rest
  induction rest using Nat.strongRecOn generalizing before outlook with
  | ind rest ih =>
    cases unmet : demand.isMet (before.store.buffer id).realized.size with
    | true => exact ⟨true, before, outlook, .realize_met unmet, .refl _ _, steady⟩
    | false =>
      cases state : (before.store.buffer id).state with
      | running => exact absurd state (steady.fits known).rests
      | done => exact ⟨false, before, outlook, .realize_done unmet state, .refl _ _, steady⟩
      | ready generator =>
        obtain ⟨result, between, wider, pulled, widens, steady'⟩ := steady.pull known state
        have known' := widens.known known
        cases result with
        | none => exact ⟨false, _, wider, .realize_over unmet state pulled, widens, steady'⟩
        | some produced =>
          obtain ⟨value, next⟩ := produced
          have settled : (between.updateBuffer id (·.afterPull generator
              (.ok (some (value, next))))).store.buffer id =
                (before.store.buffer id).produce value next := pulled.buffer_settled state _
          have last := steady'.fits known'
          rw [settled] at last
          have fresh : ((before.store.buffer id).produce value next).realized[
              (before.store.buffer id).realized.size]? = some value := by
            simp [Buffer.produce]
          obtain ⟨form, here, _⟩ := last.realized fresh
          have below := bounded _ unmet (by simp [here])
          obtain ⟨reached, after, widest, ended, widens', steady''⟩ := ih _
            (by rw [settled]; simp [Buffer.produce]; omega) steady' known' rfl
          exact ⟨reached, after, widest, .realize_more unmet state pulled ended,
            widens.trans pulled.size_le_settled widens', steady''⟩

end Steady

/-- Both answer, with answers so related, or both fail in the same kind. -/
inductive SameEnd {α β : Type} (like : α → β → Prop) : Except Failure α → Except Failure β → Prop where
  | ok {a : α} {b : β} : like a b → SameEnd like (.ok a) (.ok b)
  | error {e e' : Failure} : e.kind = e'.kind → SameEnd like (.error e) (.error e')

/-- From this machine, the action ends as its model does, which knows forms only, and leaves a machine
that is steady and where what was known is known still. -/
def Mirrors {α β : Type} (code : Code σ) (outlook : Outlook) (before : Machine σ) (action : Action σ α)
    (model : Except Failure β) (like : Outlook → α → β → Prop) : Prop :=
  ∃ result after wider, Machine.Ends code action before result after ∧
    outlook.Widens before.store.buffers.size wider ∧ Steady code wider after ∧
    SameEnd (like wider) result model

namespace Mirrors

open Machine

variable {α β γ δ : Type} {code : Code σ} {outlook : Outlook} {before : Machine σ}
  {action : Action σ α} {model : Except Failure β} {like : Outlook → α → β → Prop}

theorem pure {a : α} {b : β} (steady : Steady code outlook before) (alike : like outlook a b) :
    Mirrors code outlook before (Pure.pure a) (.ok b) like :=
  ⟨_, before, outlook, ends_pure.mpr ⟨rfl, rfl⟩, .refl _ _, steady, .ok alike⟩

theorem fail {e e' : Failure} (steady : Steady code outlook before) (kind : e.kind = e'.kind) :
    Mirrors code outlook before (.fail e) (.error e') like :=
  ⟨_, before, outlook, ends_fail.mpr ⟨rfl, rfl⟩, .refl _ _, steady, .error kind⟩

theorem bind {f : α → Action σ γ} {g : β → Except Failure δ} {like' : Outlook → γ → δ → Prop}
    (first : Mirrors code outlook before action model like)
    (rest : ∀ {wider after a b}, model = .ok b → outlook.Widens before.store.buffers.size wider →
      Steady code wider after → like wider a b → Mirrors code wider after (f a) (g b) like') :
    Mirrors code outlook before (action >>= f) (model >>= g) like' := by
  obtain ⟨result, between, wider, ended, widens, steady, same⟩ := first
  cases same with
  | error kind =>
    exact ⟨_, between, wider, ends_bind.mpr (.inr ⟨_, ended, rfl⟩), widens, steady, .error kind⟩
  | ok alike =>
    obtain ⟨result, after, widest, ended', widens', steady', same⟩ := rest rfl widens steady alike
    exact ⟨result, after, widest, ends_bind.mpr (.inl ⟨_, between, ended, ended'⟩),
      widens.trans ended.size_le widens', steady', same⟩

theorem bind_ok {f : α → Action σ γ} {b : β} {model : Except Failure δ}
    {like' : Outlook → γ → δ → Prop} (first : Mirrors code outlook before action (.ok b) like)
    (rest : ∀ {wider after a}, outlook.Widens before.store.buffers.size wider →
      Steady code wider after → like wider a b → Mirrors code wider after (f a) model like') :
    Mirrors code outlook before (action >>= f) model like' := by
  have both := @bind σ α β γ δ code outlook before action (.ok b) like f (fun _ => model) like' first
  refine both fun same widens steady alike => rest widens steady ?_
  rwa [Except.ok.inj same]

theorem answer {b : β} (mirrors : Mirrors code outlook before action (.ok b) like) :
    ∃ a after wider, Ends code action before (.ok a) after ∧
      outlook.Widens before.store.buffers.size wider ∧ Steady code wider after ∧ like wider a b := by
  obtain ⟨result, after, wider, ended, widens, steady, same⟩ := mirrors
  cases same with
  | ok alike => exact ⟨_, after, wider, ended, widens, steady, alike⟩

end Mirrors

namespace Steady

open Machine

variable {code : Code σ} {outlook : Outlook} {before : Machine σ} {handle : Handle}

theorem get {course : Course} (steady : Steady code outlook before)
    (known : outlook handle.buffer = some course) (index : Nat) :
    Mirrors code outlook before (handle.get index) (.ok (course.at? index))
      fun wider => Option.Rel (Forced wider) := by
  obtain ⟨reached, after, wider, realized, widens, steady'⟩ :=
    steady.realize known (.upTo (index + 1)) (index + 1) (by
      intro size unmet _
      simpa [Demand.isMet] using unmet)
  obtain ⟨item, ended⟩ := Ends.get realized
  obtain ⟨found, atEnd⟩ := ended.get_item
  refine ⟨_, after, wider, ended, widens, steady', .ok ?_⟩
  have fits := steady'.fits (widens.known known)
  cases item with
  | some item =>
    obtain ⟨form, here, forced⟩ := fits.realized found.symm
    rw [here]
    exact .some forced
  | none =>
    have behind := Array.getElem?_eq_none_iff.mp found.symm
    rw [Course.at?_none_of_le behind (fits.done (atEnd rfl))]
    exact .none

section Ending

variable {forms : List Value}

theorem realize_all (steady : Steady code outlook before)
    (known : outlook handle.buffer = some (.ending forms)) :
    ∃ reached after wider, Ends code (Action.realize handle.buffer .all) before (.ok reached) after ∧
      outlook.Widens before.store.buffers.size wider ∧ Steady code wider after := by
  refine steady.realize known .all forms.length fun _ _ here => ?_
  obtain ⟨form, here⟩ := Option.isSome_iff_exists.mp here
  exact (List.getElem?_eq_some_iff.mp here).1

theorem realized_done (steady : Steady code outlook before)
    (known : outlook handle.buffer = some (.ending forms))
    (done : (before.store.buffer handle.buffer).state = .done) :
    List.Forall₂ (Forced outlook) (before.store.realized handle) forms := by
  have fits := steady.fits known
  have each {i : Nat} (inside : i < (before.store.realized handle).length) :
      ∃ form, forms[i]? = some form ∧ Forced outlook (before.store.realized handle)[i] form :=
    fits.realized (by rw [← Array.getElem?_toList]; exact List.getElem?_eq_getElem inside)
  have longer : forms.length ≤ (before.store.realized handle).length := by
    have behind := List.getElem?_eq_none_iff.mp (fits.done done)
    simpa [Store.realized] using behind
  have length : (before.store.realized handle).length = forms.length := by
    by_contra different
    have inside : forms.length < (before.store.realized handle).length := by omega
    obtain ⟨form, here, _⟩ := each inside
    simp at here
  refine List.forall₂_iff_get.mpr ⟨length, fun i inside inside' => ?_⟩
  obtain ⟨form, here, forced⟩ := each inside
  obtain ⟨_, rfl⟩ := List.getElem?_eq_some_iff.mp here
  exact forced

theorem force (steady : Steady code outlook before)
    (known : outlook handle.buffer = some (.ending forms)) :
    Mirrors code outlook before handle.force (.ok forms)
      fun wider => List.Forall₂ (Forced wider) := by
  obtain ⟨reached, after, wider, realized, widens, steady'⟩ := steady.realize_all known
  have ended : Ends code handle.force before (.ok (after.store.realized handle)) after :=
    ends_bind_ok.mpr ⟨reached, after, realized,
      ends_bind_ok.mpr ⟨_, after, ends_store.mpr ⟨rfl, rfl⟩, ends_pure.mpr ⟨rfl, rfl⟩⟩⟩
  exact ⟨_, after, wider, ended, widens, steady',
    .ok (steady'.realized_done (widens.known known) ended.force_items.2)⟩

theorem length (steady : Steady code outlook before)
    (known : outlook handle.buffer = some (.ending forms)) :
    Mirrors code outlook before handle.length (.ok forms.length) fun _ => Eq := by
  obtain ⟨reached, after, wider, realized, widens, steady'⟩ := steady.realize_all known
  have ended : Ends code handle.length before
      (.ok (after.store.buffer handle.buffer).realized.size) after :=
    ends_bind_ok.mpr ⟨reached, after, realized,
      ends_bind_ok.mpr ⟨_, after, ends_store.mpr ⟨rfl, rfl⟩, ends_pure.mpr ⟨rfl, rfl⟩⟩⟩
  have whole := steady'.realized_done (widens.known known) ended.length_size.2
  exact ⟨_, after, wider, ended, widens, steady', .ok (by simpa [Store.realized] using whole.length_eq)⟩

end Ending

end Steady

end Terse
