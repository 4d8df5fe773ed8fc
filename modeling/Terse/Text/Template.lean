import Terse.Input.Cycle
import Terse.Sequence.Basic
import Terse.Text.Grapheme
import Terse.Value.Display

/-! Templates. In a template each percent sign is a place to fill, unless a backslash stands
directly before it. -/
namespace Terse

variable {σ : Type}

namespace Template

/-- The clusters of a template with its places filled from a cycle. A backslash and the cluster
behind it are copied; with nothing to fill in, places stay as they are. -/
def substitute : (clusters : List String) → (escaped : Bool) → Cycle String → List String
  | [], _, _ => []
  | g :: rest, true, data => g :: substitute rest false data
  | g :: rest, false, data =>
    if g = "\\" then g :: substitute rest true data
    else if g = "%" then
      match data.next? with
      | some (item, data) => item :: substitute rest false data
      | none => g :: substitute rest false data
    else g :: substitute rest false data

def render (template : String) (items : List String) : String :=
  String.join (substitute (Text.graphemes template) false (.ofList items))

end Template

namespace Value

/-- What a value gives to go into texts: its elements, or itself if it is a scalar. -/
def plainItems (value : Value) : Action σ (List String) := do
  let items ← match value.sequence? with
    | some sequence => sequence.force
    | none => pure [value]
  let store ← Action.store
  return items.map store.plainText

def fillInto (data : Value) (template : String) : Action σ String := do
  return Template.render template (← data.plainItems)

end Value

end Terse
