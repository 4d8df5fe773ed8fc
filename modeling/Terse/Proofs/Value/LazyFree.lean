import Terse.Proofs.Machine.Rules

namespace Terse

variable {σ : Type}

namespace Value

inductive LazyFree : Value → Prop where
  | number (q : Rat) : LazyFree (.number q)
  | text (s : String) : LazyFree (.text s)
  | list {items : List Value} : (∀ item ∈ items, LazyFree item) → LazyFree (.list items)
  | function (f : Callable) : LazyFree (.function f)

theorem sameItems_iff {items others : List Value}
    (each : ∀ item ∈ items, ∀ other, item.same other = true ↔ item = other) :
    sameItems items others = true ↔ items = others := by
  induction items generalizing others with
  | nil => cases others <;> simp [sameItems]
  | cons item items ih =>
    cases others with
    | nil => simp [sameItems]
    | cons other others =>
      have rest := @ih others fun item mem => each item (by simp [mem])
      simp [sameItems, each item (by simp) other, rest]

theorem LazyFree.same_iff {v w : Value} (free : v.LazyFree) : v.same w = true ↔ v = w := by
  induction free generalizing w with
  | list _ ih => cases w <;> simp [same, sameItems_iff fun item mem other => @ih item mem other]
  | _ => cases w <;> simp [same]

/-- Truth of what is at hand; a lazy sequence, which may have to be pulled for it, is left out. -/
def plainTruth : Value → Bool
  | number q => q ≠ 0
  | text s => !s.isEmpty
  | list items => !items.isEmpty
  | lazy _ => false
  | function _ => true

namespace LazyFree

open Machine

variable {code : Code σ} {machine : Machine σ}

theorem truth {v : Value} (free : v.LazyFree) :
    Ends code v.truth machine (.ok v.plainTruth) machine := by
  cases free <;> exact ends_pure.mpr ⟨rfl, rfl⟩

theorem compareAt_items (items others : List Value) (index : Nat) :
    (Sequence.compareAt (.items items) (.items others) index : Action σ (Option Bool)) =
      match items[index]?, others[index]? with
      | none, none => return some true
      | some v, some w => do if ← v.equals w then return none else return some false
      | _, _ => return some false :=
  rfl

theorem settles_items {items others left right : List Value} {index : Nat}
    (here : items.drop index = left) (there : others.drop index = right)
    (equals : ∀ v ∈ left, ∀ w ∈ right, Ends code (v.equals w) machine (.ok (v.same w)) machine) :
    Settles code (Sequence.compareAt (.items items) (.items others)) index machine
      (.ok (sameItems left right)) machine := by
  induction left generalizing index right with
  | nil =>
    have x : items[index]? = none := by rw [← List.head?_drop, here]; rfl
    cases right with
    | nil =>
      have y : others[index]? = none := by rw [← List.head?_drop, there]; rfl
      apply Settles.verdict
      rw [compareAt_items, x, y]
      exact ends_pure.mpr ⟨by simp [sameItems], rfl⟩
    | cons w ws =>
      have y : others[index]? = some w := by rw [← List.head?_drop, there]; rfl
      apply Settles.verdict
      rw [compareAt_items, x, y]
      exact ends_pure.mpr ⟨by simp [sameItems], rfl⟩
  | cons v vs ih =>
    have x : items[index]? = some v := by rw [← List.head?_drop, here]; rfl
    cases right with
    | nil =>
      have y : others[index]? = none := by rw [← List.head?_drop, there]; rfl
      apply Settles.verdict
      rw [compareAt_items, x, y]
      exact ends_pure.mpr ⟨by simp [sameItems], rfl⟩
    | cons w ws =>
      have y : others[index]? = some w := by rw [← List.head?_drop, there]; rfl
      have compared := equals v (by simp) w (by simp)
      cases agree : v.same w with
      | false =>
        rw [agree] at compared
        apply Settles.verdict
        rw [compareAt_items, x, y]
        exact ends_bind_ok.mpr
          ⟨false, machine, compared, ends_pure.mpr ⟨by simp [sameItems, agree], rfl⟩⟩
      | true =>
        rw [agree] at compared
        have goesOn : Ends code (Sequence.compareAt (.items items) (.items others) index) machine
            (.ok none) machine := by
          rw [compareAt_items, x, y]
          exact ends_bind_ok.mpr ⟨true, machine, compared, ends_pure.mpr ⟨rfl, rfl⟩⟩
        have here : items.drop (index + 1) = vs := by rw [← List.drop_drop, here]; rfl
        have there : others.drop (index + 1) = ws := by rw [← List.drop_drop, there]; rfl
        have rest := ih here there fun v mem w mem' =>
          equals v (by simp [mem]) w (by simp [mem'])
        simpa [sameItems, agree] using Settles.next goesOn rest

theorem equals {v w : Value} (free : v.LazyFree) (free' : w.LazyFree) :
    Ends code (v.equals w) machine (.ok (v.same w)) machine := by
  induction free generalizing w with
  | number q => exact ends_pure.mpr ⟨rfl, rfl⟩
  | text s => exact ends_pure.mpr ⟨rfl, rfl⟩
  | function f => exact ends_pure.mpr ⟨rfl, rfl⟩
  | @list items _ ih =>
    cases free' with
    | @list others free' =>
      rw [same]
      exact ends_compare.mpr
        (settles_items rfl rfl fun v mem w mem' => ih v mem (free' w mem'))
    | _ => exact ends_pure.mpr ⟨rfl, rfl⟩

end LazyFree

end Value

end Terse
