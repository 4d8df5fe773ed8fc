import Mathlib.GroupTheory.Perm.List
import Terse.Proofs.Text.Filling

/-! Turning texts by rings. The successor in a ring of distinct items is a permutation: it goes around the
ring and leaves all else alone. So a text can be turned back, as long as what is turned is cut into
clusters as it was put together. -/
namespace Terse

variable {σ : Type}

namespace Text

/-- An ASCII character, the carriage return apart, which the line feed clings to. -/
def IsPlain (c : Char) : Prop :=
  c.toNat < 128 ∧ c ≠ '\r'

instance : DecidablePred IsPlain :=
  fun _ => inferInstanceAs (Decidable (_ ∧ _))

def IsPlainLetter (g : String) : Prop :=
  ∃ c, g = String.ofList [c] ∧ IsPlain c

namespace BreakClass

def parts (k : BreakClass) : Bool :=
  k = .lineFeed || k = .control || k = .other

theorem inRanges_controlRanges {n : Nat} (ascii : n < 128) (noReturn : n ≠ 0x0D) (noFeed : n ≠ 0x0A)
    (hidden : ¬ (0x20 ≤ n ∧ n < 0x7F)) : inRanges controlRanges n = true := by
  rw [inRanges, List.any_eq_true]
  have placed : n ≤ 0x9 ∨ (0xB ≤ n ∧ n ≤ 0xC) ∨ (0xE ≤ n ∧ n ≤ 0x1F) ∨ 0x7F ≤ n := by omega
  rcases placed with low | feeds | high | delete
  · exact ⟨(0x0, 0x9), by decide, by simpa using low⟩
  · exact ⟨(0xB, 0xC), by decide, by simpa using feeds⟩
  · exact ⟨(0xE, 0x1F), by decide, by simpa using high⟩
  · exact ⟨(0x7F, 0x9F), by decide, by simp; omega⟩

theorem parts_ofChar {c : Char} (plain : IsPlain c) : (ofChar c).parts = true := by
  obtain ⟨ascii, noReturn⟩ := plain
  have other : c.toNat ≠ 0x0D := fun same => noReturn (Char.toNat_inj.mp same)
  rw [ofChar]
  by_cases feed : c.toNat = 0x0A
  · simp only [feed]
    rfl
  by_cases visible : 0x20 ≤ c.toNat ∧ c.toNat < 0x7F
  · simp only [if_neg other, if_neg feed, if_pos visible]
    rfl
  · simp only [if_neg other, if_neg feed, if_neg visible,
      if_pos (inRanges_controlRanges ascii other feed visible)]
    rfl

end BreakClass

theorem Left.breaksBefore_of_parts {left : Left} (parted : left.last.parts = true) {k : BreakClass}
    (parts : k.parts = true) : left.breaksBefore k = true := by
  obtain ⟨last, unpaired, pictured, tied, consonant, linked⟩ := left
  simp only [BreakClass.parts, Bool.or_eq_true, decide_eq_true_eq] at parted parts
  rcases parted with (rfl | rfl) | rfl <;> rcases parts with (rfl | rfl) | rfl <;> rfl

theorem clustersFrom_of_plain {left : Left} (parted : left.last.parts = true) (opened : Char)
    {cs : List Char} (plain : ∀ c ∈ cs, IsPlain c) :
    clustersFrom left [opened] cs = [opened] :: cs.map ([·]) := by
  induction cs generalizing left opened with
  | nil => rfl
  | cons c cs ih =>
    obtain ⟨first, rest⟩ := List.forall_mem_cons.mp plain
    have parts := BreakClass.parts_ofChar first
    have behind : (left.push (.ofChar c)).last.parts = true := parts
    rw [clustersFrom, if_pos (Left.breaksBefore_of_parts parted parts), ih behind c rest]
    rfl

theorem clusters_of_plain {cs : List Char} (plain : ∀ c ∈ cs, IsPlain c) :
    clusters cs = cs.map ([·]) := by
  cases cs with
  | nil => rfl
  | cons c cs =>
    obtain ⟨first, rest⟩ := List.forall_mem_cons.mp plain
    have behind : (Left.nothing.push (.ofChar c)).last.parts = true := BreakClass.parts_ofChar first
    exact clustersFrom_of_plain behind c rest

theorem isPlainLetter_of_mem_graphemes {s : String} (plain : ∀ c ∈ s.toList, IsPlain c) {g : String}
    (mem : g ∈ graphemes s) : IsPlainLetter g := by
  rw [graphemes, clusters_of_plain plain, List.map_map] at mem
  obtain ⟨c, here, rfl⟩ := List.mem_map.mp mem
  exact ⟨c, rfl, plain c here⟩

theorem forall_isPlain_join {gs : List String} (letters : ∀ g ∈ gs, IsPlainLetter g) :
    ∀ c ∈ (String.join gs).toList, IsPlain c := by
  intro c mem
  rw [String.toList_join] at mem
  obtain ⟨g, here, inside⟩ := List.mem_flatMap.mp mem
  obtain ⟨d, rfl, plain⟩ := letters g here
  rw [String.toList_ofList, List.mem_singleton] at inside
  exact inside ▸ plain

theorem graphemes_join {gs : List String} (letters : ∀ g ∈ gs, IsPlainLetter g) :
    graphemes (String.join gs) = gs := by
  rw [graphemes, clusters_of_plain (forall_isPlain_join letters), String.toList_join, List.map_map]
  induction gs with
  | nil => rfl
  | cons g gs ih =>
    obtain ⟨⟨c, rfl, _⟩, rest⟩ := List.forall_mem_cons.mp letters
    rw [List.flatMap_cons, List.map_append, ih rest, String.toList_ofList]
    rfl

end Text

namespace Ring

variable {ring : List String} {text other : String}

/-- Among distinct items the successor goes around, and stays where it is outside. -/
theorem successor_eq_formPerm (distinct : ring.Nodup) (g : String) :
    successor ring g = ring.formPerm g := by
  rw [successor]
  cases found : ring.idxOf? g with
  | none => exact (List.formPerm_apply_of_notMem (List.idxOf?_eq_none_iff.mp found)).symm
  | some index =>
    obtain ⟨inside, rfl, _⟩ := List.idxOf?_eq_some_iff.mp found
    have next := Nat.mod_lt (index + 1) (Nat.zero_lt_of_lt inside)
    change (ring[(index + 1) % ring.length]?).getD ring[index] = _
    rw [List.formPerm_apply_getElem ring distinct index inside, List.getElem?_eq_getElem next,
      Option.getD_some]

/-- Where the ring has the one, it has the other next, the first item next to the last; and what is not
in the ring stays. -/
structure ComesNext (ring : List String) (g next : String) : Prop where
  inside : ∀ i, ring[i]? = some g → ring[(i + 1) % ring.length]? = some next
  outside : g ∉ ring → next = g

theorem comesNext_successor (distinct : ring.Nodup) (g : String) :
    ComesNext ring g (successor ring g) := by
  rw [successor_eq_formPerm distinct]
  constructor
  · intro i found
    obtain ⟨inside, rfl⟩ := List.getElem?_eq_some_iff.mp found
    rw [List.formPerm_apply_getElem ring distinct i inside]
    exact List.getElem?_eq_getElem _
  · exact List.formPerm_apply_of_notMem

theorem turn_comesNext (distinct : ring.Nodup) (text : String) :
    ∃ clusters, List.Forall₂ (ComesNext ring) (Text.graphemes text) clusters ∧
      turn ring text = String.join clusters := by
  refine ⟨(Text.graphemes text).map (successor ring), ?_, rfl⟩
  apply List.forall₂_map_right_iff.mpr
  exact List.forall₂_same.mpr fun g _ => comesNext_successor distinct g

example : turn ["0", "1", "2"] "2x0" = "0x1" := by
  decide +kernel

theorem successor_injective (distinct : ring.Nodup) : Function.Injective (successor ring) := by
  intro g h same
  rw [successor_eq_formPerm distinct, successor_eq_formPerm distinct] at same
  exact ring.formPerm.injective same

theorem successor_reverse (distinct : ring.Nodup) (g : String) :
    successor ring.reverse (successor ring g) = g := by
  rw [successor_eq_formPerm distinct, successor_eq_formPerm (List.nodup_reverse.mpr distinct),
    List.formPerm_reverse]
  exact ring.formPerm.symm_apply_apply g

theorem successor_iterate_length (distinct : ring.Nodup) (g : String) :
    (successor ring)^[ring.length] g = g := by
  have permutes : successor ring = ring.formPerm := funext (successor_eq_formPerm distinct)
  have once : ring.formPerm ^ ring.length = 1 := List.formPerm_pow_length_eq_one_of_nodup ring distinct
  rw [permutes, Equiv.Perm.iterate_eq_pow, once, Equiv.Perm.one_apply]

/-- The turned text is cut into the turned clusters. -/
def KeepsApart (ring : List String) (text : String) : Prop :=
  Text.graphemes (turn ring text) = (Text.graphemes text).map (successor ring)

theorem graphemes_iterate {times : Nat}
    (apart : ∀ k < times, KeepsApart ring ((turn ring)^[k] text)) :
    Text.graphemes ((turn ring)^[times] text) =
      (Text.graphemes text).map (successor ring)^[times] := by
  induction times with
  | zero => exact (List.map_id _).symm
  | succ times ih =>
    rw [Function.iterate_succ_apply', apart times (Nat.lt_succ_self times),
      ih fun k before => apart k (Nat.lt_succ_of_lt before), List.map_map,
      ← Function.iterate_succ']

theorem turn_reverse (distinct : ring.Nodup) (apart : KeepsApart ring text) :
    turn ring.reverse (turn ring text) = text := by
  have back : successor ring.reverse ∘ successor ring = id := funext (successor_reverse distinct)
  rw [turn, apart, List.map_map, back, List.map_id, Text.join_graphemes]

theorem turn_iterate_length (distinct : ring.Nodup)
    (apart : ∀ k, k + 1 < ring.length → KeepsApart ring ((turn ring)^[k] text)) :
    (turn ring)^[ring.length] text = text := by
  have around : (successor ring)^[ring.length] = id := funext (successor_iterate_length distinct)
  cases length : ring.length with
  | zero => rfl
  | succ last =>
    rw [length] at apart around
    -- Of the last turn only the text is needed, not its clusters.
    rw [Function.iterate_succ_apply', turn,
      graphemes_iterate fun k before => apart k (Nat.succ_lt_succ before), List.map_map,
      ← Function.iterate_succ', around, List.map_id, Text.join_graphemes]

theorem eq_of_turn_eq (distinct : ring.Nodup) (apart : KeepsApart ring text)
    (apart' : KeepsApart ring other) (same : turn ring text = turn ring other) : text = other := by
  have clusters := congrArg Text.graphemes same
  rw [apart, apart'] at clusters
  rw [← Text.join_graphemes text, ← Text.join_graphemes other,
    List.map_injective_iff.mpr (successor_injective distinct) clusters]

theorem isPlainLetter_successor (letters : ∀ item ∈ ring, Text.IsPlainLetter item) {g : String}
    (plain : Text.IsPlainLetter g) : Text.IsPlainLetter (successor ring g) := by
  rw [successor]
  split
  · rename_i index _
    cases item : ring[(index + 1) % ring.length]? with
    | none => exact plain
    | some next => exact letters next (List.mem_of_getElem? item)
  · exact plain

theorem keepsApart_of_plain (letters : ∀ item ∈ ring, Text.IsPlainLetter item)
    (plain : ∀ c ∈ text.toList, Text.IsPlain c) (k : Nat) :
    KeepsApart ring ((turn ring)^[k] text) := by
  have turned {text : String} (plain : ∀ c ∈ text.toList, Text.IsPlain c) :
      ∀ g ∈ (Text.graphemes text).map (successor ring), Text.IsPlainLetter g := by
    intro g mem
    obtain ⟨h, here, rfl⟩ := List.mem_map.mp mem
    exact isPlainLetter_successor letters (Text.isPlainLetter_of_mem_graphemes plain here)
  induction k generalizing text with
  | zero => exact Text.graphemes_join (turned plain)
  | succ k ih => exact ih (Text.forall_isPlain_join (turned plain))

end Ring

namespace Value

def ringMembers (ring : Value) : Action σ (List Value) :=
  match ring with
  | .text s => return (Text.graphemes s).map .text
  | .list _ | .lazy _ => ring.elements
  | other => .fail (.badRing other.type)

def turnTextTimes (ring : Value) : (times : Nat) → String → Action σ String
  | 0, s => return s
  | times + 1, s => do
    let turned ← ring.turnText s
    ring.turnTextTimes times turned

end Value

namespace Machine.Ends

variable {code : Code σ} {before after : Machine σ} {ring : Value} {members : List Value}

theorem ringItems (made : Ends code ring.ringMembers before (.ok members) after) :
    Ends code ring.ringItems before (.ok (members.map after.store.plainText)) after := by
  cases ring with
  | text s =>
    obtain ⟨same, rfl⟩ := ends_pure.mp made
    obtain rfl := Except.ok.inj same
    refine ends_pure.mpr ⟨?_, rfl⟩
    rw [List.map_map]
    exact congrArg Except.ok (List.map_id _)
  | list items =>
    have forced : Ends code (Value.list items).elements before (.ok members) after := made
    exact forced.plainItems
  | lazy handle =>
    have forced : Ends code (Value.lazy handle).elements before (.ok members) after := made
    exact forced.plainItems
  | number | function => cases (ends_fail.mp made).1

theorem ringMembers_again (made : Ends code ring.ringMembers before (.ok members) after) :
    Ends code ring.ringMembers after (.ok members) after := by
  cases ring with
  | lazy handle =>
    have forced : Ends code handle.force before (.ok members) after := made
    obtain ⟨rfl, state⟩ := forced.force_items
    exact ends_force_done state
  | text | list =>
    obtain ⟨same, rfl⟩ := ends_pure.mp made
    exact ends_pure.mpr ⟨same, rfl⟩
  | number | function => cases (ends_fail.mp made).1

theorem turnText_members (made : Ends code ring.ringMembers before (.ok members) after)
    (text : String) :
    Ends code (ring.turnText text) before
      (.ok (Ring.turn (members.map after.store.plainText) text)) after :=
  made.ringItems.turnText text

theorem turnTextTimes (made : Ends code ring.ringMembers before (.ok members) after) {times : Nat}
    (some : times ≠ 0) (text : String) :
    Ends code (ring.turnTextTimes times text) before
      (.ok ((Ring.turn (members.map after.store.plainText))^[times] text)) after := by
  have later (times : Nat) (text : String) : Ends code (ring.turnTextTimes times text) after
      (.ok ((Ring.turn (members.map after.store.plainText))^[times] text)) after := by
    induction times generalizing text with
    | zero => exact ends_pure.mpr ⟨rfl, rfl⟩
    | succ times ih =>
      exact ends_bind_ok.mpr ⟨_, after, made.ringMembers_again.turnText_members text, ih _⟩
  obtain ⟨times, rfl⟩ := Nat.exists_eq_succ_of_ne_zero some
  exact ends_bind_ok.mpr ⟨_, after, made.turnText_members text, later times _⟩

end Machine.Ends

/-- A ring of distinct items turns texts cluster by cluster, each item into the next. The ring of its
members in opposite order turns them back, as many turns as it has members change nothing, and distinct
texts stay distinct, where the turned clusters stay apart; plain letters do. -/
theorem turning_undone {code : Code σ} {before after : Machine σ} {ring : Value}
    {members : List Value} {items : List String}
    (made : Machine.Ends code ring.ringMembers before (.ok members) after)
    (shown : members.map after.store.plainText = items) (distinct : items.Nodup) :
    (∀ text, ∃ clusters, List.Forall₂ (Ring.ComesNext items) (Text.graphemes text) clusters ∧
      Machine.Ends code (ring.turnText text) before (.ok (String.join clusters)) after) ∧
    (∀ text, Ring.KeepsApart items text → ∃ turned,
      Machine.Ends code (ring.turnText text) before (.ok turned) after ∧
        Machine.Ends code ((Value.list members.reverse).turnText turned) after (.ok text) after) ∧
    (members ≠ [] → ∀ text,
      (∀ k, k + 1 < members.length → Ring.KeepsApart items ((Ring.turn items)^[k] text)) →
        Machine.Ends code (ring.turnTextTimes members.length text) before (.ok text) after) ∧
    (∀ text other turned, Ring.KeepsApart items text → Ring.KeepsApart items other →
      Machine.Ends code (ring.turnText text) before (.ok turned) after →
        Machine.Ends code (ring.turnText other) before (.ok turned) after → text = other) ∧
    ((∀ item ∈ items, Text.IsPlainLetter item) → ∀ text, (∀ c ∈ text.toList, Text.IsPlain c) →
      ∀ k, Ring.KeepsApart items ((Ring.turn items)^[k] text)) := by
  obtain rfl := shown
  refine ⟨fun text => ?_, fun text apart => ⟨_, made.turnText_members text, ?_⟩,
    fun some text apart => ?_, fun text other turned apart apart' first second => ?_,
    fun letters text plain => Ring.keepsApart_of_plain letters plain⟩
  · obtain ⟨clusters, each, turned⟩ := Ring.turn_comesNext distinct text
    exact ⟨clusters, each, turned ▸ made.turnText_members text⟩
  · have given : Machine.Ends code (Value.list members.reverse).ringMembers after
        (.ok members.reverse) after := Machine.ends_pure.mpr ⟨rfl, rfl⟩
    have back := given.turnText_members (Ring.turn (members.map after.store.plainText) text)
    rwa [List.map_reverse, Ring.turn_reverse distinct apart] at back
  · have turned := made.turnTextTimes (List.length_pos_iff.mpr some).ne' text
    have length : (members.map after.store.plainText).length = members.length := List.length_map _
    rw [← length] at apart turned
    rwa [Ring.turn_iterate_length distinct apart, length] at turned
  · have same := (first.unique (made.turnText_members text)).1.symm.trans
      (second.unique (made.turnText_members other)).1
    exact Ring.eq_of_turn_eq distinct apart apart' (Except.ok.inj same)

/-- The integers from zero to two as a ring, two going over to zero; the letter is not in it. -/
theorem turning_undone_integers :
    let ring := Value.lazy ⟨0, 0⟩
    let members := [Value.ofInt 0, .ofInt 1, .ofInt 2]
    let items := ["0", "1", "2"]
    Machine.Ends streamCode ring.ringMembers streams (.ok members) settledStreams ∧
      members.map settledStreams.store.plainText = items ∧ items.Nodup ∧
      Ring.KeepsApart items "2x0" ∧
      (∃ clusters, List.Forall₂ (Ring.ComesNext items) (Text.graphemes "2x0") clusters ∧
        Machine.Ends streamCode (ring.turnText "2x0") streams (.ok (String.join clusters))
          settledStreams) ∧
      (∃ turned, Machine.Ends streamCode (ring.turnText "2x0") streams (.ok turned) settledStreams ∧
        Machine.Ends streamCode ((Value.list members.reverse).turnText turned) settledStreams
          (.ok "2x0") settledStreams) ∧
      Machine.Ends streamCode (ring.turnTextTimes 3 "2x0") streams (.ok "2x0") settledStreams := by
  intro ring members items
  have made : Machine.Ends streamCode ring.ringMembers streams (.ok members) settledStreams :=
    ⟨5, rfl⟩
  have shown : members.map settledStreams.store.plainText = items := by decide +kernel
  have distinct : items.Nodup := by decide
  obtain ⟨next, back, around, -, apart⟩ := turning_undone made shown distinct
  have letters : ∀ item ∈ items, Text.IsPlainLetter item := by
    refine List.forall_mem_cons.mpr ⟨⟨'0', rfl, by decide⟩, List.forall_mem_cons.mpr ⟨?_, ?_⟩⟩
    · exact ⟨'1', rfl, by decide⟩
    · exact List.forall_mem_singleton.mpr ⟨'2', rfl, by decide⟩
  have plain : ∀ c ∈ "2x0".toList, Text.IsPlain c := by
    refine List.forall_mem_cons.mpr ⟨by decide, List.forall_mem_cons.mpr ⟨by decide, ?_⟩⟩
    exact List.forall_mem_singleton.mpr (by decide)
  have each := apart letters "2x0" plain
  exact ⟨made, shown, distinct, each 0, next "2x0", back "2x0" (each 0),
    around (List.cons_ne_nil _ _) "2x0" fun k _ => each k⟩

end Terse
