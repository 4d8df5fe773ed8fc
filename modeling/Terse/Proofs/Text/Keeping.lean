import Mathlib.Data.List.Flatten
import Mathlib.Data.List.Infix
import Terse.Sequence.Keep

namespace Terse

variable {σ : Type}

namespace Text

theorem occursWithin_iff (part whole : List Char) :
    occursWithin part whole = true ↔ part <:+: whole := by
  induction whole with
  | nil => rw [occursWithin, List.isEmpty_iff, List.infix_nil]
  | cons c whole ih =>
    rw [occursWithin, Bool.or_eq_true, List.isPrefixOf_iff_prefix, ih, List.infix_cons_iff]

theorem infix_of_mem_graphemes {g s : String} (mem : g ∈ graphemes s) : g.toList <:+: s.toList := by
  obtain ⟨cluster, here, rfl⟩ := List.mem_map.mp mem
  rw [String.toList_ofList]
  have stands := List.infix_of_mem_flatten here
  rwa [flatten_clusters] at stands

theorem ne_empty_of_mem_graphemes {g s : String} (mem : g ∈ graphemes s) : g ≠ "" := by
  obtain ⟨cluster, here, rfl⟩ := List.mem_map.mp mem
  intro empty
  have none := congrArg String.toList empty
  rw [String.toList_ofList] at none
  exact ne_nil_of_mem_clusters here none

/-- Texts that are left out are missed when the others are joined, unless they are empty. -/
theorem eq_of_join_eq {fewer all : List String} (sub : fewer.Sublist all)
    (filled : ∀ s ∈ all, s ≠ "") (joined : String.join all = String.join fewer) : all = fewer := by
  induction sub with
  | slnil => rfl
  | @cons fewer all dropped sub _ =>
    have shorter : (String.join fewer).length ≤ (String.join all).length := by
      rw [← String.length_toList, ← String.length_toList, String.toList_join, String.toList_join]
      exact (sub.flatMap _).length_le
    have positive := String.length_eq_zero_iff.not.mpr (filled dropped (by simp))
    have length := congrArg String.length joined
    rw [String.join_cons, String.length_append] at length
    omega
  | @cons_cons fewer all kept sub ih =>
    rw [String.join_cons, String.join_cons, String.append_right_inj] at joined
    rw [ih (fun s mem => filled s (by simp [mem])) joined]

end Text

namespace Value

def clusterList (s : String) : Value :=
  .list ((Text.graphemes s).map .text)

/-- The clusters of `h` that stand in `n`. -/
def standing (h n : String) : List String :=
  (Text.graphemes h).filter (·.toList <:+: n.toList)

/-- The clusters of `h` that are clusters of `n`. -/
def shared (h n : String) : List String :=
  (Text.graphemes h).filter (· ∈ Text.graphemes n)

theorem keepClusters_text (n : String) (gs : List String) :
    (keepClusters (.text n) gs : Action σ (List String)) =
      pure (gs.filter (·.toList <:+: n.toList)) := by
  induction gs with
  | nil => rfl
  | cons g gs ih =>
    rw [keepClusters, ih, occursIn]
    simp only [pure_bind, List.filter_cons, Text.occursWithin_iff, decide_eq_true_iff]

theorem search_texts (g : String) (gs : List String) :
    (Sequence.search (.text g) (gs.map .text) : Action σ Bool) = pure (decide (g ∈ gs)) := by
  induction gs with
  | nil => rfl
  | cons first gs ih =>
    have compared : ((Value.text first).equals (.text g) : Action σ Bool) =
        pure (decide (first = g)) := by
      simp [equals, sequence?, same]
    rw [List.map_cons, Sequence.search, compared, pure_bind, ih]
    by_cases found : first = g
    · simp [found]
    · have other : ¬ g = first := fun same => found same.symm
      simp [found, other]

theorem keepItems_texts (ns gs : List String) :
    (keepItems (.list (ns.map .text)) (gs.map .text) : Action σ (List Value)) =
      pure ((gs.filter (· ∈ ns)).map .text) := by
  induction gs with
  | nil => rfl
  | cons g gs ih =>
    have occurs : ((Value.text g).occursIn (.list (ns.map .text)) : Action σ Bool) =
        pure (decide (g ∈ ns)) := search_texts g ns
    rw [List.map_cons, keepItems, occurs, ih]
    simp only [pure_bind, List.filter_cons]
    split <;> rfl

theorem sublist_standing (h n : String) : (shared h n).Sublist (standing h n) := by
  have stands : shared h n = (standing h n).filter (· ∈ Text.graphemes n) := by
    unfold shared standing
    rw [List.filter_filter]
    refine List.filter_congr fun g _ => ?_
    rw [Bool.eq_iff_iff, Bool.and_eq_true, decide_eq_true_iff, decide_eq_true_iff]
    exact ⟨fun mem => ⟨mem, Text.infix_of_mem_graphemes mem⟩, And.left⟩
  rw [stands]
  exact List.filter_sublist

theorem keep_texts (h n : String) :
    ((text h).keep (text n) : Action σ Value) = pure (text (String.join (standing h n))) := by
  rw [keep, keepClusters_text, pure_bind]
  rfl

theorem keep_clusterLists (h n : String) :
    ((clusterList h).keep (clusterList n) : Action σ Value) = pure (list ((shared h n).map text)) := by
  change keepItems (clusterList n) ((Text.graphemes h).map .text) >>= _ = _
  rw [clusterList, keepItems_texts, pure_bind]
  rfl

/-- What is kept of texts, and what of their lists of clusters. -/
structure KeepsClusters (σ : Type) (h n : String) : Prop where
  texts : ((text h).keep (text n) : Action σ Value) = pure (text (String.join (standing h n)))
  lists : ((clusterList h).keep (clusterList n) : Action σ Value) =
    pure (list ((shared h n).map text))
  none_lost : (shared h n).Sublist (standing h n)
  /-- Both keep the same exactly if no cluster of `h` stands in `n` apart from the clusters of `n`. -/
  agree : String.join (standing h n) = String.join (shared h n) ↔
    ∀ g ∈ Text.graphemes h, g.toList <:+: n.toList → g ∈ Text.graphemes n

/-- A text keeps its clusters that stand in the other text. These are all that the lists of clusters have
in common, but not only these: also such as are part of a cluster there. -/
theorem keeps_standing_clusters (h n : String) : KeepsClusters σ h n where
  texts := keep_texts h n
  lists := keep_clusterLists h n
  none_lost := sublist_standing h n
  agree := by
    constructor
    · intro joined g mem stands
      have filled (s : String) (mem : s ∈ standing h n) : s ≠ "" :=
        Text.ne_empty_of_mem_graphemes (List.mem_of_mem_filter mem)
      have same := Text.eq_of_join_eq (sublist_standing h n) filled joined
      have kept : g ∈ standing h n := List.mem_filter.mpr ⟨mem, decide_eq_true stands⟩
      rw [same] at kept
      exact of_decide_eq_true (List.mem_filter.mp kept).2
    · intro among
      congr 1
      refine List.filter_congr fun g mem => ?_
      rw [decide_eq_decide]
      exact ⟨among g mem, Text.infix_of_mem_graphemes⟩

/-- An `e` is kept though the other text has no such cluster, only an `e` with an accent. -/
theorem keeps_part_of_cluster :
    ¬ ∀ h n : String, ((text h).keep (text n) : Action Unit Value) =
      pure (text (String.join (shared h n))) := by
  intro same
  have kept := (same "e" "e\u0301").symm.trans (keep_texts "e" "e\u0301")
  have lost : String.join (shared "e" "e\u0301") = "" := by decide
  have found : String.join (standing "e" "e\u0301") = "e" := by decide
  rw [lost, found] at kept
  have same : "" = "e" := Value.text.inj (Action.answer.inj kept)
  exact absurd same (by decide)

end Value

end Terse
