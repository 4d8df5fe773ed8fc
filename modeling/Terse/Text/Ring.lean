import Terse.Text.Template

namespace Terse

variable {σ : Type}

namespace Ring

/-- The item behind the first that equals `g`; what is not in the ring is its own successor. -/
def successor (ring : List String) (g : String) : String :=
  match ring.idxOf? g with
  | some index => ring[(index + 1) % ring.length]?.getD g
  | none => g

def turn (ring : List String) (text : String) : String :=
  String.join ((Text.graphemes text).map (successor ring))

end Ring

namespace Value

/-- The items of a ring: the clusters of a text, or the elements of a sequence as texts. -/
def ringItems (ring : Value) : Action σ (List String) :=
  match ring with
  | .text s => return Text.graphemes s
  | .list _ | .lazy _ => ring.plainItems
  | other => .fail (.badRing other.type)

def turnText (ring : Value) (text : String) : Action σ String := do
  return Ring.turn (← ring.ringItems) text

end Value

end Terse
