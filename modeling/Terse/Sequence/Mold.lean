import Terse.Sequence.Basic

namespace Terse

variable {σ : Type}

namespace Shape

def fillSlot (slot : Value) (content : Cycle Value) : Action σ (Value × Cycle Value) :=
  match slot.sequence? with
  | some nested => do
    let shape ← nested.force
    let (items, content) ← Action.request (.fill shape content)
    return (.list items, content)
  | none =>
    match content.next? with
    | some filled => return filled
    | none => .fail .emptyContent

/-- Fills the places of a shape from the left, each with the next item of the content. -/
def fillSlots : (shape : List Value) → (content : Cycle Value) →
    Action σ (List Value × Cycle Value)
  | [], content => return ([], content)
  | slot :: slots, content => do
    let (item, content) ← fillSlot slot content
    let (items, content) ← fillSlots slots content
    return (item :: items, content)

end Shape

/-- The content in the form of the shape, read over and over as far as there are places. Content
that is no sequence is one item. -/
def Value.mold (content shape : Value) : Action σ Value :=
  match shape.sequence? with
  | none => .fail (.shapeNotList shape.type)
  | some shape => do
    let items ← match content.sequence? with
      | some sequence => sequence.force
      | none => pure [content]
    let slots ← shape.force
    let (molded, _) ← Action.request (.fill slots (.ofList items))
    return .list molded

end Terse
