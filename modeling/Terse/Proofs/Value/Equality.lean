import Mathlib.Data.Nat.Find
import Terse.Proofs.Lazy.Scripts

namespace Terse

variable {σ : Type}

inductive Sequence.Takes (outlook : Outlook) : Sequence → Course → Prop where
  | items {values forms : List Value} : List.Forall₂ (Forced outlook) values forms →
      Takes outlook (.items values) (.ending forms)
  | lazy {handle : Handle} {course : Course} : outlook handle.buffer = some course →
      Takes outlook (.lazy handle) course

theorem Sequence.Takes.widen {outlook wider : Outlook} {sequence : Sequence} {course : Course}
    (takes : sequence.Takes outlook course)
    (known : ∀ {id course}, outlook id = some course → wider id = some course) :
    sequence.Takes wider course := by
  cases takes with
  | items each => exact .items (Forced.widen_all known each)
  | lazy here => exact .lazy (known here)

namespace Forced

variable {outlook : Outlook} {v w t u : Value} {forms : List Value}

theorem sequence (forced : Forced outlook v (.list forms)) :
    ∃ sequence, v.sequence? = some sequence ∧ sequence.Takes outlook (.ending forms) := by
  cases forced with
  | list length each => exact ⟨_, rfl, .items (list_iff.mp (.list length each))⟩
  | lazy here => exact ⟨_, rfl, .lazy here⟩

theorem scalar (forced : Forced outlook v t) (single : t.sequence? = none) : v = t := by
  cases forced with
  | list | lazy => simp [Value.sequence?] at single
  | _ => rfl

theorem form_list (forced : Forced outlook v t) {sequence : Sequence}
    (many : t.sequence? = some sequence) : ∃ forms, t = .list forms := by
  cases forced with
  | list | lazy => exact ⟨_, rfl⟩
  | _ => simp [Value.sequence?] at many

theorem getElem?_rel {items forms : List Value} (each : List.Forall₂ (Forced outlook) items forms)
    (index : Nat) : Option.Rel (Forced outlook) items[index]? forms[index]? := by
  induction each generalizing index with
  | nil => exact .none
  | cons forced _ ih =>
    cases index with
    | zero => exact .some forced
    | succ index => exact ih index

end Forced

namespace Steady

open Machine

variable {code : Code σ} {outlook : Outlook} {before : Machine σ} {sequence : Sequence}

theorem get_at {course : Course} (steady : Steady code outlook before)
    (takes : sequence.Takes outlook course) (index : Nat) :
    Mirrors code outlook before (sequence.get index) (.ok (course.at? index))
      fun wider => Option.Rel (Forced wider) := by
  cases takes with
  | items each => exact .pure steady (Forced.getElem?_rel each index)
  | lazy known => exact steady.get known index

end Steady

namespace Course

/-- What comparing two courses comes to at one place: a verdict, unless the forms there agree. -/
def verdict? (left right : Course) (index : Nat) : Option Bool :=
  match left.at? index, right.at? index with
  | none, none => some true
  | some t, some u => if t.same u then none else some false
  | _, _ => some false

section Verdict

variable {left right : Course} {index : Nat}

theorem agree_of_undecided (free : ∀ {index t}, left.at? index = some t → t.LazyFree)
    (undecided : left.verdict? right index = none) : left.at? index = right.at? index := by
  rw [verdict?] at undecided
  split at undecided
  · cases undecided
  · rename_i t u here there
    split at undecided
    · rename_i agree
      rw [here, there, (free here).same_iff.mp agree]
    · cases undecided
  · cases undecided

theorem over_of_verdict (verdict : left.verdict? right index = some true) :
    left.at? index = none ∧ right.at? index = none := by
  rw [verdict?] at verdict
  split at verdict
  · exact ⟨‹_›, ‹_›⟩
  · split at verdict <;> cases verdict
  · cases verdict

theorem differ_of_verdict (free : ∀ {index t}, left.at? index = some t → t.LazyFree)
    (verdict : left.verdict? right index = some false) : left.at? index ≠ right.at? index := by
  intro agree
  rw [verdict?, ← agree] at verdict
  cases here : left.at? index with
  | none => simp [here] at verdict
  | some t => simp [here, (free here).same_iff.mpr rfl] at verdict

/-- If one of two courses ends, they are told apart, or found to agree, at some first place. -/
theorem exists_verdict (free : ∀ {index t}, left.at? index = some t → t.LazyFree)
    (ends : ∃ index, left.at? index = none ∨ right.at? index = none) :
    ∃ index verdict, (∀ earlier < index, left.verdict? right earlier = none) ∧
      left.verdict? right index = some verdict ∧
      (verdict = true ↔ ∀ index, left.at? index = right.at? index) := by
  have decided : ∃ index, (left.verdict? right index).isSome := by
    obtain ⟨index, behind | behind⟩ := ends
    · exact ⟨index, by rw [verdict?, behind]; cases right.at? index <;> rfl⟩
    · exact ⟨index, by rw [verdict?, behind]; cases left.at? index <;> rfl⟩
  have undecided (earlier : Nat) (below : earlier < Nat.find decided) :
      left.verdict? right earlier = none := by
    simpa using Nat.find_min decided below
  obtain ⟨verdict, found⟩ := Option.isSome_iff_exists.mp (Nat.find_spec decided)
  refine ⟨Nat.find decided, verdict, undecided, found, ?_⟩
  cases verdict with
  | false => simpa using ⟨_, differ_of_verdict free found⟩
  | true =>
    obtain ⟨behind, behind'⟩ := over_of_verdict found
    simp only [true_iff]
    intro index
    by_cases below : index < Nat.find decided
    · exact agree_of_undecided free (undecided index below)
    · rw [at?_none_of_le (by omega) behind, at?_none_of_le (by omega) behind']

end Verdict

end Course

def Compares (code : Code σ) (t u : Value) : Prop :=
  ∀ {outlook : Outlook} {before : Machine σ} {v w : Value}, Steady code outlook before →
    Forced outlook v t → Forced outlook w u →
      Mirrors code outlook before (v.equals w) (.ok (t.same u)) fun _ => Eq

theorem Steady.compareAt {code : Code σ} {outlook : Outlook} {before : Machine σ}
    {left right : Sequence} {course other : Course} (steady : Steady code outlook before)
    (takes : left.Takes outlook course) (takes' : right.Takes outlook other) {index : Nat}
    (compares : ∀ {t u}, course.at? index = some t → other.at? index = some u → Compares code t u) :
    Mirrors code outlook before (left.compareAt right index) (.ok (course.verdict? other index))
      fun _ => Eq := by
  refine (steady.get_at takes index).bind_ok fun {wider between x} widens steady here => ?_
  refine (steady.get_at (takes'.widen widens.known) index).bind_ok
    fun {widest last y} widens' steady there => ?_
  rw [Course.verdict?]
  generalize course.at? index = t, other.at? index = u at compares here there ⊢
  cases here with
  | none => cases there <;> exact .pure steady rfl
  | some forced =>
    cases there with
    | none => exact .pure steady rfl
    | some forced' =>
      refine (compares rfl rfl steady (forced.widen widens'.known) forced').bind_ok
        fun _ steady same => ?_
      subst same
      split
      · rename_i agree
        exact .pure steady (if_pos agree).symm
      · rename_i differ
        exact .pure steady (if_neg differ).symm

theorem Steady.settle {code : Code σ} {outlook : Outlook} {before : Machine σ}
    {step : Nat → Action σ (Option Bool)} {verdict? : Nat → Option Bool} {first more : Nat}
    {verdict : Bool} (steady : Steady code outlook before)
    (each : ∀ {index wider machine}, outlook.Widens before.store.buffers.size wider →
      Steady code wider machine →
        Mirrors code wider machine (step index) (.ok (verdict? index)) fun _ => Eq)
    (waiting : ∀ index < more, verdict? (first + index) = none)
    (decided : verdict? (first + more) = some verdict) :
    ∃ after wider, Machine.Settles code step first before (.ok verdict) after ∧
      outlook.Widens before.store.buffers.size wider ∧ Steady code wider after := by
  -- The outlook is generalized, since each step may add to what is known.
  induction more generalizing first before outlook with
  | zero =>
    obtain ⟨_, after, wider, ended, widens, steady', rfl⟩ := (each (.refl _ _) steady).answer
    rw [decided] at ended
    exact ⟨after, wider, .verdict ended, widens, steady'⟩
  | succ more ih =>
    obtain ⟨_, between, wider, ended, widens, steady', rfl⟩ := (each (.refl _ _) steady).answer
    rw [waiting 0 (by omega)] at ended
    have waiting' (index : Nat) (below : index < more) : verdict? (first + 1 + index) = none := by
      rw [Nat.add_right_comm]
      exact waiting (index + 1) (by omega)
    have decided' : verdict? (first + 1 + more) = some verdict := by
      rw [Nat.add_right_comm]
      exact decided
    obtain ⟨after, widest, settled, widens', steady''⟩ := ih steady'
      (fun widens' steady => each (widens.trans ended.size_le widens') steady) waiting' decided'
    exact ⟨after, widest, .next ended settled, widens.trans ended.size_le widens', steady''⟩

theorem Steady.compare {code : Code σ} {outlook : Outlook} {before : Machine σ}
    {left right : Sequence} {course other : Course} (steady : Steady code outlook before)
    (takes : left.Takes outlook course) (takes' : right.Takes outlook other)
    (free : ∀ {index t}, course.at? index = some t → t.LazyFree)
    (ends : ∃ index, course.at? index = none ∨ other.at? index = none)
    (compares : ∀ {index t u}, course.at? index = some t → other.at? index = some u →
      Compares code t u) :
    ∃ verdict, (verdict = true ↔ ∀ index, course.at? index = other.at? index) ∧
      Mirrors code outlook before (Action.request (.compare left right)) (.ok verdict)
        fun _ => Eq := by
  obtain ⟨index, verdict, undecided, decided, agree⟩ := Course.exists_verdict free ends
  refine ⟨verdict, agree, ?_⟩
  have each {index : Nat} {wider : Outlook} {machine : Machine σ}
      (widens : outlook.Widens before.store.buffers.size wider) (steady : Steady code wider machine) :
      Mirrors code wider machine (left.compareAt right index) (.ok (course.verdict? other index))
        fun _ => Eq :=
    steady.compareAt (takes.widen widens.known) (takes'.widen widens.known) compares
  obtain ⟨after, wider, settled, widens, steady'⟩ := steady.settle each
    (fun earlier below => by rw [Nat.zero_add]; exact undecided earlier below)
    (by rw [Nat.zero_add]; exact decided)
  exact ⟨_, after, wider, Machine.ends_compare.mpr settled, widens, steady', .ok rfl⟩

theorem Value.equals_sequences {v w : Value} {sequence other : Sequence}
    (here : v.sequence? = some sequence) (there : w.sequence? = some other) :
    (v.equals w : Action σ Bool) = Action.request (.compare sequence other) := by
  rw [equals, here, there]

theorem Value.equals_scalar {v w : Value} (single : v.sequence? = none ∨ w.sequence? = none) :
    (v.equals w : Action σ Bool) = pure (v.same w) := by
  rw [equals]
  rcases single with single | single
  · rw [single]
  · rw [single]
    cases v.sequence? <;> rfl

theorem Forced.same_scalar {outlook : Outlook} {v w t u : Value} (forced : Forced outlook v t)
    (forced' : Forced outlook w u) (single : t.sequence? = none ∨ u.sequence? = none) :
    v.same w = t.same u := by
  cases forced <;> cases forced' <;> simp_all [Value.sequence?, Value.same]

theorem compares_scalar (code : Code σ) {t u : Value}
    (single : t.sequence? = none ∨ u.sequence? = none) : Compares code t u := by
  intro outlook before v w steady forced forced'
  have single' : v.sequence? = none ∨ w.sequence? = none :=
    single.imp (fun single => forced.scalar single ▸ single)
      (fun single => forced'.scalar single ▸ single)
  rw [Value.equals_scalar single', forced.same_scalar forced' single]
  exact .pure steady rfl

theorem compares_of_lazyFree (code : Code σ) {t u : Value} (free : t.LazyFree) (free' : u.LazyFree) :
    Compares code t u := by
  -- The induction is on the forms: the values may be handles, of which nothing is smaller.
  induction free generalizing u with
  | @list forms free ih =>
    cases free' with
    | @list others free' =>
      intro outlook before v w steady forced forced'
      obtain ⟨sequence, here, takes⟩ := forced.sequence
      obtain ⟨other, there, takes'⟩ := forced'.sequence
      obtain ⟨verdict, agree, mirrors⟩ := steady.compare takes takes'
        (fun found => free _ (List.mem_of_getElem? found)) ⟨forms.length, by simp [Course.at?]⟩
        (fun found found' => ih _ (List.mem_of_getElem? found) (free' _ (List.mem_of_getElem? found')))
      have same : verdict = (Value.list forms).same (.list others) := by
        rw [Bool.eq_iff_iff, agree, (Value.LazyFree.list free).same_iff, Value.list.injEq]
        exact List.ext_getElem?_iff.symm
      rw [Value.equals_sequences here there, ← same]
      exact mirrors
    | _ => exact compares_scalar code (.inr rfl)
  | _ => exact compares_scalar code (.inl rfl)

theorem Steady.equals {code : Code σ} {outlook : Outlook} {before : Machine σ} {v w t u : Value}
    (steady : Steady code outlook before) (forced : Forced outlook v t) (forced' : Forced outlook w u) :
    Mirrors code outlook before (v.equals w) (.ok (t.same u)) fun _ => Eq :=
  compares_of_lazyFree code forced.lazyFree forced'.lazyFree steady forced forced'

def Agree (code : Code σ) (machine : Machine σ) (v w : Value) : Prop :=
  ∃ after, Machine.Ends code (v.equals w) machine (.ok true) after

theorem Steady.agree_iff {code : Code σ} {outlook : Outlook} {machine : Machine σ} {v w t u : Value}
    (steady : Steady code outlook machine) (forced : Forced outlook v t)
    (forced' : Forced outlook w u) : Agree code machine v w ↔ t = u := by
  obtain ⟨_, after, _, ended, _, _, rfl⟩ := (steady.equals forced forced').answer
  rw [← forced.lazyFree.same_iff]
  constructor
  · rintro ⟨_, ended'⟩
    exact Except.ok.inj (ended.unique ended').1
  · intro same
    exact ⟨after, same ▸ ended⟩

theorem Value.sameItems_iff_forall₂ {items others : List Value} :
    sameItems items others = true ↔ List.Forall₂ (fun v w => v.same w = true) items others := by
  induction items generalizing others with
  | nil => cases others <;> simp [sameItems]
  | cons item items ih => cases others <;> simp [sameItems, ih]

theorem Forced.of_same {outlook : Outlook} {v w t : Value} (forced : Forced outlook v t)
    (same : v.same w = true) : Forced outlook w t := by
  induction forced generalizing w with
  | @list items forms length _ ih =>
    cases w with
    | list others =>
      obtain ⟨length', each⟩ := List.forall₂_iff_get.mp (Value.sameItems_iff_forall₂.mp same)
      exact .list (by omega) fun i h h' => ih i (by omega) h' (each i (by omega) h)
    | _ => simp [Value.same] at same
  | @lazy handle forms here free =>
    cases w with
    | lazy other =>
      have shared : handle.buffer = other.buffer := by simpa [Value.same] using same
      exact .lazy (shared ▸ here) free
    | _ => simp [Value.same] at same
  | number q | text s | function f =>
    cases w <;> simp [Value.same] at same
    subst same
    constructor

theorem Steady.compare_unending {code : Code σ} {outlook : Outlook} {machine : Machine σ}
    {left right : Sequence} {course other : Course} (steady : Steady code outlook machine)
    (takes : left.Takes outlook course) (takes' : right.Takes outlook other)
    (free : ∀ {index t}, course.at? index = some t → t.LazyFree)
    (free' : ∀ {index t}, other.at? index = some t → t.LazyFree)
    {last : Nat} (one : (course.at? last).isSome ≠ (other.at? last).isSome) :
    ∃ after, Machine.Ends code (Action.request (.compare left right)) machine (.ok false) after := by
  have ends : ∃ index, course.at? index = none ∨ other.at? index = none := by
    refine ⟨last, ?_⟩
    by_contra neither
    obtain ⟨here, there⟩ := not_or.mp neither
    rw [Option.isSome_iff_ne_none.mpr here, Option.isSome_iff_ne_none.mpr there] at one
    exact one rfl
  obtain ⟨verdict, agree, mirrors⟩ := steady.compare takes takes' free ends
    fun here there => compares_of_lazyFree code (free here) (free' there)
  obtain ⟨_, after, _, ended, _, _, same⟩ := mirrors.answer
  rw [same] at ended
  cases verdict with
  | false => exact ⟨after, ended⟩
  | true => exact absurd (congrArg Option.isSome (agree.mp rfl last)) one

/-- What structural equality is, of values that come to their forms. -/
structure DeepEquality (code : Code σ) (outlook : Outlook) (machine : Machine σ) : Prop where
  decides : ∀ {v w t u}, Forced outlook v t → Forced outlook w u →
    ∃ verdict after wider, Machine.Ends code (v.equals w) machine (.ok verdict) after ∧
      (verdict = true ↔ t = u) ∧ outlook.Widens machine.store.buffers.size wider ∧
      Steady code wider after
  refl : ∀ {v t}, Forced outlook v t → Agree code machine v v
  symm : ∀ {v w t u}, Forced outlook v t → Forced outlook w u → Agree code machine v w →
    Agree code machine w v
  trans : ∀ {v w x t u s}, Forced outlook v t → Forced outlook w u → Forced outlook x s →
    Agree code machine v w → Agree code machine w x → Agree code machine v x
  ofSame : ∀ {v w t}, Forced outlook v t → v.same w = true → Agree code machine v w
  lazyFree : ∀ {v w : Value}, v.LazyFree → w.LazyFree →
    Machine.Ends code (v.equals w) machine (.ok (v.same w)) machine
  unending : ∀ {v forms handle form}, Forced outlook v (.list forms) →
    outlook handle.buffer = some (.unending form) → (∀ index, (form index).LazyFree) →
    (∃ after, Machine.Ends code (v.equals (.lazy handle)) machine (.ok false) after) ∧
      ∃ after, Machine.Ends code (Value.equals (.lazy handle) v) machine (.ok false) after

/-- Among values whose lazy sequences go along their courses, structural equality is equality of all
that they come to. -/
theorem equals_deeply {code : Code σ} {outlook : Outlook} {machine : Machine σ}
    (steady : Steady code outlook machine) : DeepEquality code outlook machine where
  decides := by
    intro v w t u forced forced'
    obtain ⟨_, after, wider, ended, widens, steady', rfl⟩ := (steady.equals forced forced').answer
    exact ⟨_, after, wider, ended, forced.lazyFree.same_iff, widens, steady'⟩
  refl forced := (steady.agree_iff forced forced).mpr rfl
  symm forced forced' agree :=
    (steady.agree_iff forced' forced).mpr ((steady.agree_iff forced forced').mp agree).symm
  trans forced forced' forced'' agree agree' :=
    (steady.agree_iff forced forced'').mpr
      (((steady.agree_iff forced forced').mp agree).trans ((steady.agree_iff forced' forced'').mp agree'))
  ofSame forced same := (steady.agree_iff forced (forced.of_same same)).mpr rfl
  lazyFree free free' := free.equals free'
  unending := by
    intro v forms handle form forced here free
    obtain ⟨sequence, found, takes⟩ := forced.sequence
    have takes' : (Sequence.lazy handle).Takes outlook (.unending form) := .lazy here
    have formsFree {index : Nat} {t : Value} (inside : (Course.ending forms).at? index = some t) :
        t.LazyFree := by
      cases forced.lazyFree with
      | list each => exact each t (List.mem_of_getElem? inside)
    have formFree {index : Nat} {t : Value} (inside : (Course.unending form).at? index = some t) :
        t.LazyFree := by
      rw [← Option.some.inj inside]
      exact free index
    have behind : (Course.ending forms).at? forms.length = none := by simp [Course.at?]
    constructor
    · rw [Value.equals_sequences found rfl]
      exact steady.compare_unending takes takes' formsFree formFree (by rw [behind]; simp [Course.at?])
    · rw [Value.equals_sequences rfl found]
      exact steady.compare_unending takes' takes formFree formsFree (by rw [behind]; simp [Course.at?])

/-- The first producer counts up without end; the second gives one element, a handle on buffer 0. -/
def streamCode : Code Unit :=
  ⟨fun _ _ => .answer [], fun producer pull =>
    if producer = 0 then .answer (some (.ofInt pull))
    else .answer (if pull = 0 then some (.lazy ⟨0, 0⟩) else none)⟩

def streams : Machine Unit :=
  ⟨((Store.empty.add (.range 0 3)).2.add (.native 0 0)).2.add (.native 1 0) |>.2,
    .initial [] {} .closed, ()⟩

def streamOutlook : Outlook
  | 0 => some (.integers 0 3)
  | 1 => some (.unending fun i => .ofInt i)
  | 2 => some (.ending [.list [.ofInt 0, .ofInt 1, .ofInt 2]])
  | _ => none

theorem forced_integers :
    Forced streamOutlook (.lazy ⟨0, 0⟩) (.list [.ofInt 0, .ofInt 1, .ofInt 2]) := by
  have three : Course.integers 0 3 = .ending [.ofInt 0, .ofInt 1, .ofInt 2] := rfl
  refine .lazy (congrArg some three) fun form mem => ?_
  obtain ⟨i, here⟩ := List.getElem?_of_mem mem
  have inside : (Course.integers 0 3).at? i = some form := by rw [three]; exact here
  exact Course.lazyFree_integers inside

theorem steady_streams : Steady streamCode streamOutlook streams := by
  refine steady_of_scripted fun {id course} known => ?_
  match id, known with
  | 0, known =>
    obtain rfl := Option.some.inj known
    exact ⟨by decide, _, _, .fresh_plain (script_range streamCode 0 3) Course.lazyFree_integers⟩
  | 1, known =>
    obtain rfl := Option.some.inj known
    have script : Script streamCode (Course.unending fun i => .ofInt i).at? (.native 0) :=
      fun i machine => ⟨2, rfl⟩
    refine ⟨by decide, _, _, .fresh_plain script ?_⟩
    rintro i _ ⟨⟩
    exact .number _
  | 2, known =>
    obtain rfl := Option.some.inj known
    have script : Script streamCode (fun i => if i = 0 then some (.lazy ⟨0, 0⟩) else none)
        (.native 1) := by
      rintro (_ | i) machine <;> exact ⟨2, rfl⟩
    refine ⟨by decide, _, _, .fresh script ?_⟩
    rintro (_ | i)
    · exact .some forced_integers
    · exact .none

def nestedStreams : Value := .list [.lazy ⟨2, 0⟩, .text "x"]

def nestedLists : Value :=
  .list [.list [.list [.ofInt 0, .ofInt 1, .ofInt 2]], .text "x"]

theorem forced_nestedLists : Forced streamOutlook nestedLists nestedLists := by
  have integers : Forced streamOutlook (.list [.ofInt 0, .ofInt 1, .ofInt 2])
      (.list [.ofInt 0, .ofInt 1, .ofInt 2]) :=
    .of_lazyFree forced_integers.lazyFree
  exact Forced.list_iff.mpr
    (.cons (Forced.list_iff.mpr (.cons integers .nil)) (.cons (.text "x") .nil))

theorem forced_nestedStreams : Forced streamOutlook nestedStreams nestedLists := by
  have outer : Forced streamOutlook (.lazy ⟨2, 0⟩)
      (.list [.list [.ofInt 0, .ofInt 1, .ofInt 2]]) :=
    .lazy rfl (by simpa using forced_integers.lazyFree)
  exact Forced.list_iff.mpr (.cons outer (.cons (.text "x") .nil))

theorem equals_deeply_streams :
    Steady streamCode streamOutlook streams ∧ Agree streamCode streams nestedStreams nestedLists ∧
      ∃ after, Machine.Ends streamCode (Value.equals (.lazy ⟨0, 0⟩) (.lazy ⟨1, 0⟩)) streams
        (.ok false) after := by
  have deep := equals_deeply steady_streams
  obtain ⟨verdict, after, _, ended, decided, _, _⟩ :=
    deep.decides forced_nestedStreams forced_nestedLists
  rw [decided.mpr rfl] at ended
  exact ⟨steady_streams, ⟨after, ended⟩,
    (deep.unending forced_integers rfl fun index => .number index).1⟩

end Terse
