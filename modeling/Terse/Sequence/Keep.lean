import Terse.Text.Grapheme
import Terse.Value.View

namespace Terse

variable {σ : Type}

def Text.occursWithin (part : List Char) : (whole : List Char) → Bool
  | [] => part.isEmpty
  | c :: cs => part.isPrefixOf (c :: cs) || occursWithin part cs

namespace Value

/-- Whether an item occurs in `needle`: as a part of a text, as an element of a sequence, as a digit
of a number. -/
def occursIn (item needle : Value) : Action σ Bool :=
  match needle with
  | text s =>
    match item with
    | text t => return Text.occursWithin t.toList s.toList
    | _ => return false
  | list items => (Sequence.items items).contains item
  | lazy handle => (Sequence.lazy handle).contains item
  | number q => (Sequence.items (Decimal.items q)).contains item
  | function _ => .fail .functionMembership

def keepItems (needle : Value) : List Value → Action σ (List Value)
  | [] => return []
  | item :: items => do
    let occurs ← item.occursIn needle
    let kept ← keepItems needle items
    return if occurs then item :: kept else kept

def keepClusters (needle : Value) : List String → Action σ (List String)
  | [] => return []
  | g :: gs => do
    let occurs ← (text g).occursIn needle
    let kept ← keepClusters needle gs
    return if occurs then g :: kept else kept

/-- What occurs in `needle`: of a text its clusters, which make a text again; of a number its
digits and of a sequence its elements, which make a list. -/
def keep (haystack needle : Value) : Action σ Value := do
  match haystack with
  | text s => return text (String.join (← keepClusters needle (Text.graphemes s)))
  | haystack =>
    let view ← haystack.view (some .digits)
    let items ← match view.sequence? with
      | some sequence => sequence.force
      | none => pure [view]
    return list (← keepItems needle items)

end Value

end Terse
