import Terse.Text.GraphemeBreak

/-! Extended grapheme clusters. A text is cut where the boundary rules allow it; what stands to
the left of a position is summed up in a `Left`, so one pass over the characters decides every
position. The clusters put together are the text again. -/
namespace Terse.Text

namespace BreakClass

/-- Always followed and preceded by a boundary, a carriage return before a line feed apart. -/
def isolates (k : BreakClass) : Bool :=
  k = .control || k = .carriageReturn || k = .lineFeed

/-- An extending mark, the joiner apart. -/
def isMark (k : BreakClass) : Bool :=
  k = .extend || k = .nonJoiner || k = .linker

/-- Never preceded by a boundary, whatever stands to the left. -/
def clings (k : BreakClass) : Bool :=
  k.isMark || k = .joiner || k = .spacing

/-- May stand between the two consonants of a conjunct. -/
def bridges (k : BreakClass) : Bool :=
  k = .extend || k = .linker || k = .joiner

def sameSyllable (left right : BreakClass) : Bool :=
  (left = .leadingJamo &&
    (right = .leadingJamo || right = .vowelJamo || right = .openSyllable ||
      right = .closedSyllable)) ||
  ((left = .openSyllable || left = .vowelJamo) &&
    (right = .vowelJamo || right = .trailingJamo)) ||
  ((left = .closedSyllable || left = .trailingJamo) && right = .trailingJamo)

end BreakClass

/-- What the rules need to know of the characters to the left of a position. -/
structure Left where
  last : BreakClass
  /-- An odd number of regional indicators stands here. -/
  unpaired : Bool
  /-- A pictograph stands here, followed by extending marks only. -/
  pictured : Bool
  /-- The same, followed by a joiner. -/
  tied : Bool
  /-- A consonant stands here, followed by bridging marks only. -/
  consonant : Bool
  /-- One of those marks is a linker. -/
  linked : Bool
  deriving DecidableEq

namespace Left

def nothing : Left :=
  { last := .other, unpaired := false, pictured := false, tied := false, consonant := false,
    linked := false }

def push (left : Left) (k : BreakClass) : Left :=
  { last := k
    unpaired := k = .regional && !left.unpaired
    pictured := k = .pictograph || (left.pictured && k.isMark)
    tied := left.pictured && k = .joiner
    consonant := k = .consonant || (left.consonant && k.bridges)
    linked := left.consonant && (k = .linker || (left.linked && k.bridges)) }

def breaksBefore (left : Left) (k : BreakClass) : Bool :=
  if left.last = .carriageReturn && k = .lineFeed then false
  else if left.last.isolates || k.isolates then true
  else if left.last.sameSyllable k then false
  else if k.clings || left.last = .prepended then false
  else if k = .consonant then !left.linked
  else if k = .pictograph then !left.tied
  else if k = .regional then !left.unpaired
  else true

end Left

/-- Cuts the characters that follow an open cluster, given in reverse. -/
def clustersFrom (left : Left) (opened : List Char) : List Char → List (List Char)
  | [] => [opened.reverse]
  | c :: cs =>
    let k := BreakClass.ofChar c
    if left.breaksBefore k then opened.reverse :: clustersFrom (left.push k) [c] cs
    else clustersFrom (left.push k) (c :: opened) cs

def clusters : List Char → List (List Char)
  | [] => []
  | c :: cs => clustersFrom (Left.nothing.push (BreakClass.ofChar c)) [c] cs

def graphemes (s : String) : List String :=
  (clusters s.toList).map String.ofList

theorem flatten_clustersFrom (left : Left) (opened cs : List Char) :
    (clustersFrom left opened cs).flatten = opened.reverse ++ cs := by
  induction cs generalizing left opened with
  | nil => simp [clustersFrom]
  | cons c cs ih =>
    simp only [clustersFrom]
    split <;> simp [ih]

theorem flatten_clusters (cs : List Char) : (clusters cs).flatten = cs := by
  cases cs with
  | nil => rfl
  | cons c cs => simp [clusters, flatten_clustersFrom]

theorem ne_nil_of_mem_clustersFrom {left : Left} {opened cs cluster : List Char}
    (filled : opened ≠ []) (h : cluster ∈ clustersFrom left opened cs) : cluster ≠ [] := by
  induction cs generalizing left opened with
  | nil => simp_all [clustersFrom]
  | cons c cs ih =>
    simp only [clustersFrom] at h
    split at h
    · rcases List.mem_cons.mp h with rfl | later
      · simpa using filled
      · exact ih (by simp) later
    · exact ih (by simp) h

theorem ne_nil_of_mem_clusters {cs cluster : List Char} (h : cluster ∈ clusters cs) :
    cluster ≠ [] := by
  cases cs with
  | nil => simp [clusters] at h
  | cons c cs => exact ne_nil_of_mem_clustersFrom (by simp) h

end Terse.Text
