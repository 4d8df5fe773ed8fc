import Mathlib.Algebra.Ring.Parity
import Mathlib.Data.List.Rotate
import Mathlib.Data.Nat.Count
import Terse.Proofs.Text.Formatting

/-! What becomes of each cluster of a template. Which ones are places is told by the backslashes directly
before them, and the items go around by the number of places passed. So a template cut where no backslash
is open is filled part by part, the later part from the items turned by the places of the earlier one. -/
namespace Terse

variable {σ : Type}

namespace Template

/-- The last cluster is a backslash that no backslash takes: of those at the end there is an odd number. -/
def Escapes (clusters : List String) : Prop :=
  Odd (clusters.reverse.takeWhile (· = "\\")).length

instance (clusters : List String) : Decidable (Escapes clusters) :=
  inferInstanceAs (Decidable (Odd _))

theorem not_escapes_nil : ¬ Escapes [] := by decide

theorem escapes_concat (before : List String) (g : String) :
    Escapes (before ++ [g]) ↔ g = "\\" ∧ ¬ Escapes before := by
  rw [Escapes, Escapes, List.reverse_append, List.reverse_singleton, List.singleton_append,
    List.takeWhile_cons]
  by_cases backslash : g = "\\"
  · simp [backslash, Nat.odd_add_one]
  · simp [backslash]

theorem escapes_append {front : List String} (closed : ¬ Escapes front) (back : List String) :
    Escapes (front ++ back) ↔ Escapes back := by
  induction back using List.reverseRecOn with
  | nil => simp [closed, not_escapes_nil]
  | append_singleton back g ih => rw [← List.append_assoc, escapes_concat, escapes_concat, ih]

/-- A percent sign that no backslash before it takes. -/
def IsPlace (clusters : List String) (i : Nat) : Prop :=
  clusters[i]? = some "%" ∧ ¬ Escapes (clusters.take i)

instance (clusters : List String) : DecidablePred (IsPlace clusters) :=
  fun _ => inferInstanceAs (Decidable (_ ∧ _))

def placesBefore (clusters : List String) (i : Nat) : Nat :=
  Nat.count (IsPlace clusters) i

def places (template : String) : Nat :=
  placesBefore (Text.graphemes template) (Text.graphemes template).length

def filling (clusters items : List String) (i : Nat) : Option String :=
  if IsPlace clusters i then items[placesBefore clusters i % items.length]? else clusters[i]?

variable {items front : List String}

theorem isPlace_append_left (back : List String) {i : Nat} (inside : i < front.length) :
    IsPlace (front ++ back) i ↔ IsPlace front i := by
  rw [IsPlace, IsPlace, List.getElem?_append_left inside, List.take_append_of_le_length inside.le]

theorem isPlace_append_right (closed : ¬ Escapes front) (back : List String) (j : Nat) :
    IsPlace (front ++ back) (front.length + j) ↔ IsPlace back j := by
  rw [IsPlace, IsPlace, List.getElem?_append_right (by omega), List.take_length_add_append,
    escapes_append closed, Nat.add_sub_cancel_left]

theorem placesBefore_append_left (back : List String) {i : Nat} (inside : i ≤ front.length) :
    placesBefore (front ++ back) i = placesBefore front i := by
  refine le_antisymm (Nat.count_mono_left fun j below => ?_) (Nat.count_mono_left fun j below => ?_)
  · exact (isPlace_append_left back (by omega)).mp
  · exact (isPlace_append_left back (by omega)).mpr

theorem placesBefore_append_right (closed : ¬ Escapes front) (back : List String) (j : Nat) :
    placesBefore (front ++ back) (front.length + j) =
      placesBefore front front.length + placesBefore back j := by
  rw [placesBefore, Nat.count_add, ← placesBefore, placesBefore_append_left back le_rfl]
  simp only [isPlace_append_right closed]
  rfl

theorem filling_append_left (back : List String) {i : Nat} (inside : i < front.length) :
    filling (front ++ back) items i = filling front items i := by
  simp only [filling, isPlace_append_left back inside, placesBefore_append_left back inside.le,
    List.getElem?_append_left inside]

theorem filling_append_right (some : items ≠ []) (closed : ¬ Escapes front) (back : List String)
    (j : Nat) :
    filling (front ++ back) items (front.length + j) =
      filling back (items.rotate (placesBefore front front.length % items.length)) j := by
  have positive := List.length_pos_iff.mpr some
  simp only [filling, isPlace_append_right closed, placesBefore_append_right closed,
    List.getElem?_append_right (Nat.le_add_right _ j), Nat.add_sub_cancel_left, List.length_rotate]
  rw [List.getElem?_rotate (Nat.mod_lt _ positive), ← Nat.add_mod, Nat.add_comm]

/-! The scan. One cluster is scanned behind others, which tell whether it is escaped. -/

theorem length_substitute (clusters : List String) (escaped : Bool) (data : Cycle String) :
    (substitute clusters escaped data).length = clusters.length := by
  fun_induction substitute clusters escaped data <;> simp [*]

theorem substitute_kept {before : List String} {g : String} (kept : ¬ (g = "%" ∧ ¬ Escapes before))
    (rest : List String) (data : Cycle String) :
    substitute (g :: rest) (decide (Escapes before)) data =
      g :: substitute rest (decide (Escapes (before ++ [g]))) data := by
  by_cases escaped : Escapes before
  · simp [substitute, escapes_concat, escaped]
  · have noPercent : g ≠ "%" := fun percent => kept ⟨percent, escaped⟩
    by_cases backslash : g = "\\" <;>
      simp [substitute, escapes_concat, escaped, noPercent, backslash]

theorem substitute_place {before : List String} (unescaped : ¬ Escapes before) {item : String}
    {data further : Cycle String} (next : data.next? = some (item, further)) (rest : List String) :
    substitute ("%" :: rest) (decide (Escapes before)) data =
      item :: substitute rest (decide (Escapes (before ++ ["%"]))) further := by
  simp [substitute, escapes_concat, unescaped, next]

theorem substitute_cons (some : items ≠ []) (before : List String) (g : String)
    (rest : List String) :
    ∃ out, filling (before ++ g :: rest) items before.length = .some out ∧
      substitute (g :: rest) (decide (Escapes before))
          ⟨items, placesBefore (before ++ g :: rest) before.length⟩ =
        out :: substitute rest (decide (Escapes (before ++ [g])))
          ⟨items, placesBefore (before ++ g :: rest) (before.length + 1)⟩ := by
  have isPlace : IsPlace (before ++ g :: rest) before.length ↔ g = "%" ∧ ¬ Escapes before := by
    simp [IsPlace]
  rw [filling, placesBefore, placesBefore, Nat.count_succ]
  by_cases place : IsPlace (before ++ g :: rest) before.length
  · obtain ⟨rfl, unescaped⟩ := isPlace.mp place
    have inside := Nat.mod_lt (Nat.count (IsPlace (before ++ "%" :: rest)) before.length)
      (List.length_pos_iff.mpr some)
    have item := List.getElem?_eq_getElem inside
    rw [if_pos place, if_pos place]
    exact ⟨_, item, substitute_place unescaped (by rw [Cycle.next?, item]) rest⟩
  · rw [if_neg place, if_neg place]
    exact ⟨g, by simp, substitute_kept (isPlace.not.mp place) rest _⟩

theorem substitute_getElem? (some : items ≠ []) (before rest : List String) (j : Nat) :
    (substitute rest (decide (Escapes before))
        ⟨items, placesBefore (before ++ rest) before.length⟩)[j]? =
      filling (before ++ rest) items (before.length + j) := by
  -- What is scanned already joins the clusters before, so the state of the scan is theirs again.
  induction rest generalizing before j with
  | nil => simp [substitute, filling, IsPlace]
  | cons g rest ih =>
    obtain ⟨out, here, scanned⟩ := substitute_cons some before g rest
    rw [scanned]
    cases j with
    | zero => exact here.symm
    | succ j =>
      have later := ih (before ++ [g]) j
      rw [List.append_assoc, List.singleton_append, List.length_append, List.length_singleton]
        at later
      rw [List.getElem?_cons_succ, later, Nat.add_assoc, Nat.add_comm 1]

theorem substitute_ofList (some : items ≠ []) (clusters : List String) (i : Nat) :
    (substitute clusters false (.ofList items))[i]? = filling clusters items i := by
  have scanned := substitute_getElem? some [] clusters i
  rwa [List.nil_append, List.length_nil, Nat.zero_add, placesBefore, Nat.count_zero,
    decide_eq_false not_escapes_nil] at scanned

theorem substitute_ofList_nil (clusters : List String) (escaped : Bool) :
    substitute clusters escaped (.ofList []) = clusters := by
  induction clusters generalizing escaped with
  | nil => rfl
  | cons g rest ih =>
    have next : (Cycle.ofList ([] : List String)).next? = none := rfl
    cases escaped <;> simp [substitute, next, ih]

/-- Where no backslash is open, a template can be cut. -/
theorem substitute_append (some : items ≠ []) (closed : ¬ Escapes front) (back : List String) :
    substitute (front ++ back) false (.ofList items) =
      substitute front false (.ofList items) ++
        substitute back false
          (.ofList (items.rotate (placesBefore front front.length % items.length))) := by
  have turned (n : Nat) : items.rotate n ≠ [] := by simpa using some
  refine List.ext_getElem? fun i => ?_
  rw [substitute_ofList some, List.getElem?_append, length_substitute]
  split
  · rename_i inside
    rw [substitute_ofList some, filling_append_left back inside]
  · rename_i outside
    obtain ⟨j, rfl⟩ := Nat.exists_eq_add_of_le (not_lt.mp outside)
    rw [Nat.add_sub_cancel_left, substitute_ofList (turned _), filling_append_right some closed]

/-- Each place is one item, going around the items, and all else is as it was; so is in particular what
a backslash takes, and the backslash. -/
structure Filled (clusters items out : List String) : Prop where
  length : out.length = clusters.length
  place : ∀ i, IsPlace clusters i → out[i]? = items[placesBefore clusters i % items.length]?
  copied : ∀ i, ¬ IsPlace clusters i → out[i]? = clusters[i]?
  escape : ∀ i, clusters[i]? = some "\\" → ¬ Escapes (clusters.take i) →
    out[i]? = some "\\" ∧ out[i + 1]? = clusters[i + 1]?

theorem filled_substitute (some : items ≠ []) (clusters : List String) :
    Filled clusters items (substitute clusters false (.ofList items)) := by
  have copied : ∀ i, ¬ IsPlace clusters i →
      (substitute clusters false (.ofList items))[i]? = clusters[i]? := fun i keep => by
    rw [substitute_ofList some, filling, if_neg keep]
  refine ⟨length_substitute .., fun i place => ?_, copied, fun i backslash unpaired => ⟨?_, ?_⟩⟩
  · rw [substitute_ofList some, filling, if_pos place]
  · rw [copied i (by simp [IsPlace, backslash]), backslash]
  · refine copied (i + 1) fun place => place.2 ?_
    rw [List.take_add_one, backslash, Option.toList_some, escapes_concat]
    exact ⟨rfl, unpaired⟩

end Template

theorem Text.join_graphemes (s : String) : String.join (graphemes s) = s := by
  refine String.toList_injective ?_
  rw [String.toList_join, graphemes, List.flatMap_map]
  simp only [String.toList_ofList]
  rw [List.flatMap_id', flatten_clusters]

/-- Data that gives items fills a template cluster by cluster, and a template of two parts part by
part, going on behind the item that was last filled in; without items nothing changes. -/
theorem filling_composes {code : Code σ} {before after : Machine σ} {data : Value}
    {items : List Value} (forced : Machine.Ends code data.elements before (.ok items) after) :
    (items = [] → ∀ template,
      Machine.Ends code (data.fillInto template) before (.ok template) after) ∧
    (items ≠ [] → ∀ template, ∃ out,
      Machine.Ends code (data.fillInto template) before (.ok (String.join out)) after ∧
        Template.Filled (Text.graphemes template) (items.map after.store.plainText) out) ∧
    (items ≠ [] → ∀ front back,
      Text.graphemes (front ++ back) = Text.graphemes front ++ Text.graphemes back →
      ¬ Template.Escapes (Text.graphemes front) → ∃ first second,
        Machine.Ends code (data.fillInto front) before (.ok first) after ∧
        Machine.Ends code
          ((Value.list (items.rotate (Template.places front % items.length))).fillInto back)
          after (.ok second) after ∧
        Machine.Ends code (data.fillInto (front ++ back)) before (.ok (first ++ second)) after) := by
  refine ⟨fun none template => ?_, fun some template => ?_, fun some front back apart closed => ?_⟩
  · have filled := forced.fillInto template
    rwa [none, List.map_nil, Template.render, Template.substitute_ofList_nil,
      Text.join_graphemes] at filled
  · exact ⟨_, forced.fillInto template,
      Template.filled_substitute (List.map_eq_nil_iff.not.mpr some) _⟩
  · let turned := items.rotate (Template.places front % items.length)
    have given : Machine.Ends code (Value.list turned).elements after (.ok turned) after :=
      Machine.ends_pure.mpr ⟨rfl, rfl⟩
    refine ⟨_, _, forced.fillInto front, given.fillInto back, ?_⟩
    have whole := forced.fillInto (front ++ back)
    rw [Template.render, apart,
      Template.substitute_append (List.map_eq_nil_iff.not.mpr some) closed, String.join_append,
      List.length_map, ← List.map_rotate] at whole
    exact whole

theorem filling_composes_integers :
    let data := Value.lazy ⟨0, 0⟩
    let items := [Value.ofInt 0, .ofInt 1, .ofInt 2]
    Machine.Ends streamCode data.elements streams (.ok items) settledStreams ∧ items ≠ [] ∧
      Text.graphemes ("\\%%" ++ "%%%%") = Text.graphemes "\\%%" ++ Text.graphemes "%%%%" ∧
      ¬ Template.Escapes (Text.graphemes "\\%%") ∧ ∃ first second,
        Machine.Ends streamCode (data.fillInto "\\%%") streams (.ok first) settledStreams ∧
        Machine.Ends streamCode ((Value.list [.ofInt 1, .ofInt 2, .ofInt 0]).fillInto "%%%%")
          settledStreams (.ok second) settledStreams ∧
        Machine.Ends streamCode (data.fillInto ("\\%%" ++ "%%%%")) streams
          (.ok (first ++ second)) settledStreams := by
  intro data items
  have forced : Machine.Ends streamCode data.elements streams (.ok items) settledStreams :=
    ⟨5, rfl⟩
  have apart : Text.graphemes ("\\%%" ++ "%%%%") =
      Text.graphemes "\\%%" ++ Text.graphemes "%%%%" := by decide +kernel
  have closed : ¬ Template.Escapes (Text.graphemes "\\%%") := by decide +kernel
  have places : Template.places "\\%%" = 1 := by decide +kernel
  obtain ⟨first, second, filled, further, whole⟩ :=
    (filling_composes forced).2.2 (List.cons_ne_nil _ _) _ _ apart closed
  rw [places] at further
  exact ⟨forced, List.cons_ne_nil _ _, apart, closed, first, second, filled, further, whole⟩

end Terse
