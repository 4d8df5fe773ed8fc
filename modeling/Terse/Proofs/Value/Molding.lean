import Mathlib.Data.List.Pairwise
import Terse.Proofs.Value.Forms

/-! Molding: what stands where in the molded list. Places are told by their addresses, so that nothing
here depends on the order in which the places are filled; that order is the lexicographic one. The
sequences in a shape may do anything when they are pulled, as long as they end. -/
namespace Terse

variable {σ : Type} {code : Code σ}

open Machine

/-- Forced at every depth, outer sequences before those within and all from the left, the values come
to these trees. -/
inductive Unfolds (code : Code σ) :
    Machine σ → List Value → List Value → Machine σ → Prop where
  | nil (machine : Machine σ) : Unfolds code machine [] [] machine
  | leaf {before after : Machine σ} {v : Value} {rest trees : List Value} :
      v.sequence? = none → Unfolds code before rest trees after →
        Unfolds code before (v :: rest) (v :: trees) after
  | nested {before forced between after : Machine σ} {v : Value} {sequence : Sequence}
      {items subtrees rest trees : List Value} :
      v.sequence? = some sequence → Ends code sequence.force before (.ok items) forced →
        Unfolds code forced items subtrees between → Unfolds code between rest trees after →
          Unfolds code before (v :: rest) (.list subtrees :: trees) after

namespace Value

/-- What stands at an address, which says by which elements to go down. -/
def at? : Value → List Nat → Option Value
  | v, [] => some v
  | .list items, index :: address => items[index]?.bind fun item => item.at? address
  | _, _ :: _ => none

mutual

/-- The addresses of all that is no list, from left to right. -/
def leaves : Value → List (List Nat)
  | .list items => leavesFrom 0 items
  | _ => [[]]

def leavesFrom (index : Nat) : List Value → List (List Nat)
  | [] => []
  | item :: rest => item.leaves.map (index :: ·) ++ leavesFrom (index + 1) rest

end

def leafItems (tree : Value) : List Value :=
  tree.leaves.filterMap tree.at?

theorem leaves_of_not_list {v : Value} (single : ∀ items, v ≠ .list items) : v.leaves = [[]] := by
  cases v with
  | list items => exact absurd rfl (single items)
  | _ => rfl

theorem mem_leavesFrom {items : List Value} {index : Nat} {address : List Nat} :
    address ∈ leavesFrom index items ↔
      ∃ i item rest, items[i]? = some item ∧ rest ∈ item.leaves ∧ address = (index + i) :: rest := by
  induction items generalizing index with
  | nil => simp [leavesFrom]
  | cons head tail ih =>
    rw [leavesFrom, List.mem_append, List.mem_map, ih]
    constructor
    · rintro (⟨rest, mem, rfl⟩ | ⟨i, item, rest, here, mem, rfl⟩)
      · exact ⟨0, head, rest, rfl, mem, rfl⟩
      · exact ⟨i + 1, item, rest, here, mem, by rw [Nat.add_right_comm, Nat.add_assoc]⟩
    · rintro ⟨_ | i, item, rest, here, mem, rfl⟩
      · cases here
        exact .inl ⟨rest, mem, rfl⟩
      · exact .inr ⟨i, item, rest, here, mem, by rw [Nat.add_right_comm, Nat.add_assoc]⟩

/-- The leaves are the addresses at which something stands that is no list. -/
theorem mem_leaves {v : Value} {address : List Nat} :
    address ∈ v.leaves ↔ ∃ leaf, v.at? address = some leaf ∧ ∀ items, leaf ≠ .list items := by
  induction address generalizing v with
  | nil =>
    cases v with
    | list items => simp [leaves, mem_leavesFrom, at?]
    | _ => simp [leaves, at?]
  | cons index address ih =>
    cases v with
    | list items =>
      rw [leaves, mem_leavesFrom]
      simp only [Nat.zero_add, List.cons.injEq]
      constructor
      · rintro ⟨i, item, rest, here, mem, rfl, rfl⟩
        obtain ⟨leaf, found, single⟩ := ih.mp mem
        exact ⟨leaf, by rw [at?, here]; exact found, single⟩
      · rintro ⟨leaf, found, single⟩
        rw [at?, Option.bind_eq_some_iff] at found
        obtain ⟨item, here, found⟩ := found
        exact ⟨index, item, address, here, ih.mpr ⟨leaf, found, single⟩, rfl, rfl⟩
    | _ => simp [leaves, at?]

theorem LazyFree.at? {v found : Value} {address : List Nat} (free : v.LazyFree)
    (here : v.at? address = some found) : found.LazyFree := by
  induction address generalizing v with
  | nil =>
    cases here
    exact free
  | cons index address ih =>
    cases free with
    | list each =>
      rw [Value.at?, Option.bind_eq_some_iff] at here
      obtain ⟨item, below, here⟩ := here
      exact ih (each item (List.mem_of_getElem? below)) here
    | _ => cases here

theorem LazyFree.scalar_iff {v : Value} (free : v.LazyFree) :
    v.sequence? = none ↔ ∀ items, v ≠ .list items := by
  cases free <;> simp [sequence?]

mutual

theorem leaves_ascend (v : Value) : v.leaves.Pairwise (· < ·) := by
  cases v with
  | list items => exact leavesFrom_ascend 0 items
  | _ => exact List.pairwise_singleton _ _

theorem leavesFrom_ascend (index : Nat) (items : List Value) :
    (leavesFrom index items).Pairwise (· < ·) := by
  cases items with
  | nil => exact .nil
  | cons item rest =>
    rw [leavesFrom, List.pairwise_append]
    refine ⟨?_, leavesFrom_ascend (index + 1) rest, ?_⟩
    · rw [List.pairwise_map]
      exact (leaves_ascend item).imp fun before => List.Lex.cons before
    · intro address mem other mem'
      obtain ⟨_, _, rfl⟩ := List.mem_map.mp mem
      obtain ⟨i, _, _, _, _, rfl⟩ := mem_leavesFrom.mp mem'
      exact List.Lex.rel (by omega)

end

end Value

/-- A value with the nesting of the tree, the leaves of which are the items in turn, from this position
on and around. -/
structure Molded (items : List Value) (position : Nat) (tree molded : Value) : Prop where
  nesting : ∀ {address slots}, tree.at? address = some (.list slots) →
    ∃ filled, molded.at? address = some (.list filled) ∧ filled.length = slots.length
  leaf : ∀ {k address}, tree.leaves[k]? = some address →
    molded.at? address = items[(position + k) % items.length]?

structure MoldedFrom (items : List Value) (position index : Nat) (trees molded : List Value) :
    Prop where
  length : molded.length = trees.length
  nesting : ∀ {i : Nat} {tree : Value} {address slots}, trees[i]? = some tree →
    tree.at? address = some (.list slots) →
      ∃ filled, molded[i]?.bind (·.at? address) = some (.list filled) ∧
        filled.length = slots.length
  leaf : ∀ {k i : Nat} {address}, (Value.leavesFrom index trees)[k]? = some ((index + i) :: address) →
    molded[i]?.bind (·.at? address) = items[(position + k) % items.length]?

section Molded

variable {items : List Value} {position index : Nat} {tree molded : Value}

theorem molded_leaf {item : Value} (single : ∀ slots, tree ≠ .list slots)
    (here : items[position % items.length]? = some item) : Molded items position tree item where
  nesting {address slots} found := by
    cases tree with
    | list slots => exact absurd rfl (single slots)
    | _ => cases address <;> cases found
  leaf {k address} found := by
    rw [Value.leaves_of_not_list single] at found
    obtain ⟨inside, rfl⟩ := List.getElem?_eq_some_iff.mp found
    obtain rfl : k = 0 := by simpa using inside
    exact here.symm

theorem MoldedFrom.nil : MoldedFrom items position index [] [] where
  length := rfl
  nesting here := by cases here
  leaf here := by cases here

theorem MoldedFrom.cons {trees rest : List Value} (head : Molded items position tree molded)
    (tail : MoldedFrom items (position + tree.leaves.length) (index + 1) trees rest) :
    MoldedFrom items position index (tree :: trees) (molded :: rest) where
  length := congrArg (· + 1) tail.length
  nesting {i other address slots} here found := by
    cases i with
    | zero =>
      cases here
      exact head.nesting found
    | succ i => exact tail.nesting here found
  leaf {k i address} found := by
    rw [Value.leavesFrom, List.getElem?_append, List.length_map] at found
    -- The leaves of the first tree are all before those of the others.
    split at found
    · rw [List.getElem?_map, Option.map_eq_some_iff] at found
      obtain ⟨below, found, same⟩ := found
      obtain ⟨same, rfl⟩ := List.cons.inj same
      obtain rfl : i = 0 := by omega
      exact head.leaf found
    · obtain ⟨j, _, below, _, _, same⟩ := Value.mem_leavesFrom.mp (List.mem_of_getElem? found)
      obtain rfl : i = j + 1 := by have := (List.cons.inj same).1; omega
      rw [← Nat.add_assoc, Nat.add_right_comm] at found
      have there := tail.leaf found
      rwa [show position + tree.leaves.length + (k - tree.leaves.length) = position + k by omega]
        at there

theorem MoldedFrom.list {trees rest : List Value} (each : MoldedFrom items position 0 trees rest) :
    Molded items position (.list trees) (.list rest) where
  nesting {address slots} found := by
    cases address with
    | nil =>
      cases found
      exact ⟨rest, rfl, each.length⟩
    | cons i address =>
      rw [Value.at?, Option.bind_eq_some_iff] at found
      obtain ⟨tree, here, found⟩ := found
      exact each.nesting here found
  leaf {k address} found := by
    rw [Value.leaves] at found
    obtain ⟨i, _, below, _, _, rfl⟩ := Value.mem_leavesFrom.mp (List.mem_of_getElem? found)
    have there := each.leaf found
    rw [Nat.zero_add]
    exact there

theorem Molded.unique {other : Value} (free : tree.LazyFree) (one : Molded items position tree molded)
    (two : Molded items position tree other) : molded = other := by
  have agree {address : List Nat} {leaf : Value} (found : tree.at? address = some leaf)
      (single : ∀ items, leaf ≠ .list items) : molded.at? address = other.at? address := by
    obtain ⟨k, here⟩ := List.getElem?_of_mem (Value.mem_leaves.mpr ⟨leaf, found, single⟩)
    rw [one.leaf here, two.leaf here]
  have nesting {address : List Nat} {slots : List Value}
      (found : tree.at? address = some (.list slots)) :
      ∃ filled others, molded.at? address = some (.list filled) ∧
        other.at? address = some (.list others) ∧ filled.length = slots.length ∧
        others.length = slots.length := by
    obtain ⟨filled, here, length⟩ := one.nesting found
    obtain ⟨others, there, length'⟩ := two.nesting found
    exact ⟨filled, others, here, there, length, length'⟩
  -- What is known at the addresses of the tree is known at those below each element, so from here on
  -- the induction is about addresses alone.
  clear one two
  induction free generalizing molded other with
  | @list slots _ ih =>
    obtain ⟨filled, others, here, there, length, length'⟩ := @nesting [] slots rfl
    cases here
    cases there
    congr 1
    refine List.ext_getElem (by omega) fun i inside inside' => ?_
    have slot : slots[i]? = some slots[i] := List.getElem?_eq_getElem (by omega)
    have down {address : List Nat} : (Value.list slots).at? (i :: address) = slots[i].at? address := by
      rw [Value.at?, slot]
      rfl
    have here {address : List Nat} : (Value.list filled).at? (i :: address) = filled[i].at? address := by
      rw [Value.at?, List.getElem?_eq_getElem inside]
      rfl
    have there {address : List Nat} : (Value.list others).at? (i :: address) = others[i].at? address := by
      rw [Value.at?, List.getElem?_eq_getElem inside']
      rfl
    refine ih slots[i] (List.getElem_mem _) (fun {address leaf} found single => ?_)
      fun {address slots'} found => ?_
    · rw [← here, ← there]
      exact agree (down.trans found) single
    · rw [← here, ← there]
      exact nesting (down.trans found)
  | _ => exact Option.some.inj (@agree [] _ rfl (by simp))

theorem molded_leafItems (tree : Value) : Molded tree.leafItems 0 tree tree where
  nesting {address slots} found := ⟨slots, found, rfl⟩
  leaf {k address} found := by
    have each (other : List Nat) (mem : other ∈ tree.leaves) :
        tree.at? other = some ((tree.at? other).getD .empty) := by
      obtain ⟨leaf, here, _⟩ := Value.mem_leaves.mp mem
      rw [here]
      rfl
    have items : tree.leafItems = tree.leaves.map fun other => (tree.at? other).getD .empty :=
      (List.filterMap_congr each).trans (congrFun List.filterMap_eq_map' _)
    have inside := (List.getElem?_eq_some_iff.mp found).1
    rw [items, List.length_map, Nat.zero_add, Nat.mod_eq_of_lt inside, List.getElem?_map, found]
    exact each address (List.mem_of_getElem? found)

end Molded

/-! Filling forms. -/

section Filling

variable {items : List Value}

mutual

theorem fillForm_molded (filled : items ≠ []) (position : Nat) (tree : Value) :
    ∃ molded, Shape.fillForm tree ⟨items, position⟩ =
        .ok (molded, ⟨items, position + tree.leaves.length⟩) ∧
      Molded items position tree molded := by
  cases tree with
  | list trees =>
    obtain ⟨rest, done, each⟩ := fillForms_molded filled position 0 trees
    refine ⟨.list rest, ?_, each.list⟩
    rw [Shape.fillForm, done]
    rfl
  | _ =>
    have inside := Nat.mod_lt position (List.length_pos_iff.mpr filled)
    have here := List.getElem?_eq_getElem inside
    refine ⟨_, ?_, molded_leaf (by simp) here⟩
    rw [Shape.fillForm_leaf (by simp), Cycle.next?, here]
    rfl

theorem fillForms_molded (filled : items ≠ []) (position index : Nat) (trees : List Value) :
    ∃ molded, Shape.fillForms trees ⟨items, position⟩ =
        .ok (molded, ⟨items, position + (Value.leavesFrom index trees).length⟩) ∧
      MoldedFrom items position index trees molded := by
  cases trees with
  | nil => exact ⟨[], rfl, .nil⟩
  | cons tree trees =>
    obtain ⟨first, done, head⟩ := fillForm_molded filled position tree
    obtain ⟨rest, done', tail⟩ :=
      fillForms_molded filled (position + tree.leaves.length) (index + 1) trees
    refine ⟨first :: rest, ?_, MoldedFrom.cons head tail⟩
    rw [Shape.fillForms, done]
    simp only [bind, Except.bind, done', Value.leavesFrom, List.length_append, List.length_map,
      Nat.add_assoc]
    rfl

end

mutual

theorem fillForm_empty (position : Nat) (tree : Value) :
    Shape.fillForm tree ⟨[], position⟩ =
      if tree.leaves = [] then .ok (tree, ⟨[], position⟩) else .error .emptyContent := by
  cases tree with
  | list trees =>
    rw [Shape.fillForm, fillForms_empty position 0 trees, Value.leaves]
    split <;> rfl
  | _ => rfl

theorem fillForms_empty (position index : Nat) (trees : List Value) :
    Shape.fillForms trees ⟨[], position⟩ =
      if Value.leavesFrom index trees = [] then .ok (trees, ⟨[], position⟩)
      else .error .emptyContent := by
  cases trees with
  | nil => rfl
  | cons tree trees =>
    rw [Shape.fillForms, fillForm_empty position tree, Value.leavesFrom]
    by_cases none_here : tree.leaves = []
    · rw [if_pos none_here, none_here]
      simp only [bind, Except.bind, List.map_nil, List.nil_append]
      rw [fillForms_empty position (index + 1) trees]
      by_cases none_there : Value.leavesFrom (index + 1) trees = []
      · rw [if_pos none_there, if_pos none_there]
        rfl
      · rw [if_neg none_there, if_neg none_there]
    · rw [if_neg none_here, if_neg (by simp [none_here])]
      rfl

end

end Filling

/-! Molding in the machine. -/

section Run

variable {before between after machine : Machine σ}

/-- The action ends with this result, and if that is an answer, in this machine. -/
def EndsAs {α : Type} (code : Code σ) (action : Action σ α) (before : Machine σ)
    (result : Except Failure α) (after : Machine σ) : Prop :=
  ∃ last, Ends code action before result last ∧ ∀ a, result = .ok a → last = after

namespace EndsAs

variable {α β : Type} {action : Action σ α} {result : Except Failure α}

theorem ok {a : α} (ends : EndsAs code action before (.ok a) after) :
    Ends code action before (.ok a) after := by
  obtain ⟨last, ended, same⟩ := ends
  rwa [same a rfl] at ended

theorem of_ends (ended : Ends code action before result after) :
    EndsAs code action before result after :=
  ⟨after, ended, fun _ _ => rfl⟩

theorem pure (a : α) : EndsAs code (Pure.pure a) before (.ok a) before :=
  of_ends (ends_pure.mpr ⟨rfl, rfl⟩)

theorem after_ends {f : α → Action σ β} {a : α} {result : Except Failure β}
    (first : Ends code action before (.ok a) between) (rest : EndsAs code (f a) between result after) :
    EndsAs code (action >>= f) before result after := by
  obtain ⟨last, ended, same⟩ := rest
  exact ⟨last, ends_bind.mpr (.inl ⟨a, between, first, ended⟩), same⟩

theorem bind {f : α → Action σ β} {g : α → Except Failure β}
    (first : EndsAs code action before result between)
    (rest : ∀ a, result = .ok a → EndsAs code (f a) between (g a) after) :
    EndsAs code (action >>= f) before (result >>= g) after := by
  cases result with
  | error e =>
    obtain ⟨last, ended, _⟩ := first
    exact ⟨last, ends_bind.mpr (.inr ⟨e, ended, rfl⟩), nofun⟩
  | ok a => exact .after_ends first.ok (rest a rfl)

end EndsAs

/-- Places that come to trees are filled as the trees are, and in doing so they are forced. -/
theorem Unfolds.fills {slots trees : List Value} (unfolds : Unfolds code before slots trees after)
    (content : Cycle Value) :
    EndsAs code (Shape.fillSlots slots content) before (Shape.fillForms trees content) after := by
  induction unfolds generalizing content with
  | nil machine => exact .pure _
  | @leaf before after v rest trees single _ ih =>
    have leaf (items : List Value) : v ≠ .list items := by
      rintro rfl
      simp [Value.sequence?] at single
    have slot : EndsAs code (Shape.fillSlot v content) before (Shape.fillForm v content) before := by
      rw [Shape.fillSlot, single, Shape.fillForm_leaf leaf]
      cases content.next? with
      | none => exact .of_ends (ends_fail.mpr ⟨rfl, rfl⟩)
      | some filled => exact .pure _
    exact slot.bind fun filled _ => (ih filled.2).bind fun _ _ => .pure _
  | @nested before forced between after v sequence items subtrees rest trees here read _ _ ih ih' =>
    have slot : EndsAs code (Shape.fillSlot v content) before
        (Shape.fillForm (.list subtrees) content) between := by
      rw [Shape.fillSlot, here]
      have nested : EndsAs code (Action.request (.fill items content)) forced
          (Shape.fillForms subtrees content) between := by
        obtain ⟨last, ended, same⟩ := ih content
        exact ⟨last, ends_fill.mpr ended, same⟩
      exact .after_ends read (nested.bind fun _ _ => .pure _)
    exact slot.bind fun filled _ => (ih' filled.2).bind fun _ _ => .pure _

variable {content shape tree : Value} {items : List Value} {sequence : Sequence}

theorem Unfolds.mold (unfolds : Unfolds code between [shape] [tree] after)
    (here : shape.sequence? = some sequence)
    (read : Ends code content.elements machine (.ok items) between) :
    EndsAs code (content.mold shape) machine ((Value.list items).moldForm tree) after := by
  rw [Value.mold_of_sequence here]
  cases unfolds with
  | leaf single => simp [here] at single
  | nested here' forced unfolds last =>
    obtain rfl := Option.some.inj (here.symm.trans here')
    cases last
    refine .after_ends read (.after_ends forced ?_)
    obtain ⟨last, ended, same⟩ := unfolds.fills (.ofList items)
    have filled : EndsAs code (Action.request (.fill _ (.ofList items))) _ _ _ :=
      ⟨last, ends_fill.mpr ended, same⟩
    exact filled.bind fun _ _ => .pure _

theorem elements_final (inside : ∀ {handle}, content = .lazy handle →
      handle.buffer < before.store.buffers.size)
    (read : Ends code content.elements before (.ok items) between)
    (reaches : Reaches code between after) : Ends code content.elements after (.ok items) after := by
  cases content with
  | lazy handle =>
    have here := inside rfl
    have read : Ends code handle.force before (.ok items) between := read
    obtain ⟨rfl, state⟩ := read.force_items
    have kept := (reaches.keeps (Nat.lt_of_lt_of_le here read.size_le)).done state
    have forced : Ends code handle.force after (.ok (after.store.realized handle)) after :=
      ends_force_done (kept ▸ state)
    rw [Store.realized, kept] at forced
    exact forced
  | _ =>
    obtain ⟨same, rfl⟩ := ends_pure.mp read
    exact ends_pure.mpr ⟨same, rfl⟩

end Run

/-! What unfolds. -/

theorem Unfolds.lazyFree {before after : Machine σ} {values trees : List Value}
    (unfolds : Unfolds code before values trees after) : ∀ tree ∈ trees, tree.LazyFree := by
  induction unfolds with
  | nil => simp
  | @leaf before after v rest trees single _ ih =>
    have free : v.LazyFree := by
      cases v with
      | number q => exact .number q
      | text s => exact .text s
      | function f => exact .function f
      | _ => simp [Value.sequence?] at single
    simpa using ⟨free, ih⟩
  | nested _ _ _ _ ih ih' => simpa using ⟨.list ih, ih'⟩

theorem Unfolds.size_le {before after : Machine σ} {values trees : List Value}
    (unfolds : Unfolds code before values trees after) :
    before.store.buffers.size ≤ after.store.buffers.size := by
  induction unfolds with
  | nil => exact Nat.le_refl _
  | leaf _ _ ih => exact ih
  | nested _ read _ _ ih ih' => exact Nat.le_trans read.size_le (Nat.le_trans ih ih')

theorem Unfolds.cons {before between after : Machine σ} {v tree : Value} {rest trees : List Value}
    (first : Unfolds code before [v] [tree] between) (others : Unfolds code between rest trees after) :
    Unfolds code before (v :: rest) (tree :: trees) after := by
  cases first with
  | leaf single last =>
    cases last
    exact .leaf single others
  | nested here read unfolds last =>
    cases last
    exact .nested here read unfolds others

def UnfoldsTo (code : Code σ) (t : Value) : Prop :=
  ∀ {outlook : Outlook} {before : Machine σ} {v : Value}, Steady code outlook before →
    Forced outlook v t → ∃ after wider, Unfolds code before [v] [t] after ∧
      outlook.Widens before.store.buffers.size wider ∧ Steady code wider after

theorem unfoldsTo_all {forms : List Value} (each : ∀ t ∈ forms, UnfoldsTo code t)
    {outlook : Outlook} {before : Machine σ} {values : List Value}
    (steady : Steady code outlook before) (forced : List.Forall₂ (Forced outlook) values forms) :
    ∃ after wider, Unfolds code before values forms after ∧
      outlook.Widens before.store.buffers.size wider ∧ Steady code wider after := by
  induction forms generalizing before outlook values with
  | nil =>
    cases forced
    exact ⟨before, outlook, .nil before, .refl _ _, steady⟩
  | cons t forms ih =>
    cases forced with
    | cons head tail =>
    obtain ⟨between, wider, first, widens, steady⟩ := each t (by simp) steady head
    obtain ⟨after, widest, others, widens', steady⟩ :=
      ih (fun t mem => each t (by simp [mem])) steady (Forced.widen_all widens.known tail)
    exact ⟨after, widest, first.cons others, widens.trans first.size_le widens', steady⟩

theorem unfoldsTo_of_lazyFree (code : Code σ) {t : Value} (free : t.LazyFree) :
    UnfoldsTo code t := by
  induction free with
  | @list forms _ ih =>
    intro outlook before v steady forced
    obtain ⟨sequence, here, takes⟩ := forced.sequence
    obtain ⟨items, between, wider, read, widens, steady, each⟩ := (steady.force_at takes).answer
    obtain ⟨after, widest, unfolds, widens', steady⟩ := unfoldsTo_all ih steady each
    exact ⟨after, widest, .nested here read unfolds (.nil after),
      widens.trans read.size_le widens', steady⟩
  | _ =>
    intro outlook before v steady forced
    obtain rfl := forced.scalar rfl
    exact ⟨before, outlook, .leaf rfl (.nil before), .refl _ _, steady⟩

theorem Steady.unfolds {outlook : Outlook} {before : Machine σ} {v t : Value}
    (steady : Steady code outlook before) (forced : Forced outlook v t) :
    ∃ after wider, Unfolds code before [v] [t] after ∧
      outlook.Widens before.store.buffers.size wider ∧ Steady code wider after :=
  unfoldsTo_of_lazyFree code forced.lazyFree steady forced

/-- What molding does, if the content has these items and then the shape comes to this tree. -/
structure MoldsCyclically (code : Code σ) (machine : Machine σ) (content shape : Value)
    (items : List Value) (tree : Value) (after : Machine σ) : Prop where
  /-- The leaves of the tree are all its places, in lexicographic order. -/
  places : ∀ {address}, address ∈ tree.leaves ↔
    ∃ leaf, tree.at? address = some leaf ∧ leaf.sequence? = none
  ordered : tree.leaves.Pairwise (· < ·)
  filled : items ≠ [] → ∃ molded,
    Ends code (content.mold shape) machine (.ok molded) after ∧ Molded items 0 tree molded
  malformed : items = [] → ((∃ failure last,
    Ends code (content.mold shape) machine (.error failure) last ∧
      failure.kind = .malformedShape) ↔ tree.leaves ≠ [])
  leafless : items = [] → tree.leaves = [] →
    Ends code (content.mold shape) machine (.ok tree) after
  /-- Content has the same items afterwards, and they can be read without a pull. -/
  kept : ∀ {result last}, Ends code (content.mold shape) machine result last →
    Ends code content.elements last (.ok items) last
  back : items = tree.leafItems → Ends code (content.mold shape) machine (.ok tree) after

/-- Molding fills the places of a shape with the items of the content, in depth-first order and as
often around as there are places, at whatever depth and however lazy content and shape are. -/
theorem molds_cyclically {machine between after : Machine σ} {content shape tree : Value}
    {items : List Value} {sequence : Sequence} (many : shape.sequence? = some sequence)
    (inside : ∀ {handle}, content = .lazy handle → handle.buffer < machine.store.buffers.size)
    (read : Ends code content.elements machine (.ok items) between)
    (unfolds : Unfolds code between [shape] [tree] after) :
    MoldsCyclically code machine content shape items tree after := by
  have free : tree.LazyFree := unfolds.lazyFree tree (by simp)
  obtain ⟨trees, rfl⟩ : ∃ trees, tree = .list trees := by
    cases unfolds with
    | leaf single => simp [many] at single
    | nested => exact ⟨_, rfl⟩
  have molds := unfolds.mold many read
  have filled (some_item : items ≠ []) : ∃ molded,
      Ends code (content.mold shape) machine (.ok molded) after ∧
        Molded items 0 (.list trees) molded := by
    obtain ⟨rest, done, each⟩ := fillForms_molded some_item 0 0 trees
    refine ⟨.list rest, ?_, each.list⟩
    rw [Value.moldForm, Value.elementsForm, Cycle.ofList, done] at molds
    exact molds.ok
  have empty (no_item : items = []) : EndsAs code (content.mold shape) machine
      (if (Value.list trees).leaves = [] then .ok (.list trees) else .error .emptyContent)
      after := by
    subst no_item
    rw [Value.moldForm, Value.elementsForm, Cycle.ofList, fillForms_empty 0 0 trees] at molds
    rw [Value.leaves]
    split at molds
    · rwa [if_pos ‹_›]
    · rwa [if_neg ‹_›]
  have leafless (no_item : items = []) (no_leaf : (Value.list trees).leaves = []) :
      Ends code (content.mold shape) machine (.ok (.list trees)) after := by
    have molds := empty no_item
    rw [if_pos no_leaf] at molds
    exact molds.ok
  refine ⟨?_, Value.leaves_ascend _, filled, ?_, leafless, ?_, ?_⟩
  · intro address
    rw [Value.mem_leaves]
    refine exists_congr fun leaf => and_congr_right fun found => ?_
    exact (free.at? found).scalar_iff.symm
  · intro no_item
    constructor
    · rintro ⟨failure, last, failed, _⟩ no_leaf
      cases (failed.unique (leafless no_item no_leaf)).1
    · intro leaf
      obtain ⟨last, failed, _⟩ := empty no_item
      rw [if_neg leaf] at failed
      exact ⟨_, last, failed, rfl⟩
  · intro result last ended
    rw [Value.mold_of_sequence many] at ended
    rcases ends_bind.mp ended with ⟨items', between', read', rest⟩ | ⟨e, failed, _⟩
    · obtain ⟨_, rfl⟩ := read.unique read'
      exact elements_final inside read (.single (.ended rest))
    · cases (read.unique failed).1
  · rintro rfl
    by_cases no_item : (Value.list trees).leafItems = []
    · refine leafless no_item (List.eq_nil_iff_forall_not_mem.mpr fun address mem => ?_)
      obtain ⟨leaf, found, _⟩ := Value.mem_leaves.mp mem
      rw [List.filterMap_eq_nil_iff.mp no_item address mem] at found
      cases found
    · obtain ⟨molded, ended, fills⟩ := filled no_item
      rwa [fills.unique free (molded_leafItems _)] at ended

/-- The integers from zero to two go into four places, of which three are in a sequence of sequences:
the last place takes the first of them again. -/
theorem molds_cyclically_streams :
    ∃ molded after, Ends streamCode ((Value.lazy ⟨0, 0⟩).mold nestedStreams) streams (.ok molded)
        after ∧
      nestedLists.leaves = [[0, 0, 0], [0, 0, 1], [0, 0, 2], [1]] ∧
      molded.at? [0, 0, 2] = some (.ofInt 2) ∧ molded.at? [1] = some (.ofInt 0) ∧
      Ends streamCode (Value.lazy ⟨0, 0⟩).elements after
        (.ok [.ofInt 0, .ofInt 1, .ofInt 2]) after := by
  obtain ⟨items, between, wider, read, widens, steady, each⟩ :=
    (steady_streams.elements forced_integers).answer
  obtain ⟨after, _, unfolds, _, _⟩ := steady.unfolds (forced_nestedStreams.widen widens.known)
  obtain rfl : items = [.ofInt 0, .ofInt 1, .ofInt 2] := by
    have each : List.Forall₂ (Forced wider) items [.ofInt 0, .ofInt 1, .ofInt 2] := each
    obtain _ | ⟨⟨⟩, _ | ⟨⟨⟩, _ | ⟨⟨⟩, ⟨⟩⟩⟩⟩ := each
    rfl
  have molds := molds_cyclically rfl (by rintro _ ⟨⟩; decide) read unfolds
  obtain ⟨molded, ended, fills⟩ := molds.filled (by simp)
  exact ⟨molded, after, ended, rfl, fills.leaf (k := 2) rfl, fills.leaf (k := 3) rfl,
    molds.kept ended⟩

end Terse
