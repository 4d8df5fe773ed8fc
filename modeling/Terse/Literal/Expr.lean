import Terse.Literal.Operator

namespace Terse

inductive Expr (α : Type) where
  | number (note : α) (q : Rat)
  | text (note : α) (content : String)
  | boolean (note : α) (b : Bool)
  /-- Bracketed lists and tuples alike. -/
  | list (note : α) (items : List (Expr α))
  | signed (note : α) (sign : Sign) (operand : Expr α)
  | binary (note : α) (op : Operator) (left right : Expr α)

namespace Expr

variable {α : Type}

def note : Expr α → α
  | number note _ | text note _ | boolean note _ | list note _ | signed note _ _
  | binary note _ _ _ => note

def withNote (note : α) : Expr α → Expr α
  | number _ q => number note q
  | text _ content => text note content
  | boolean _ b => boolean note b
  | list _ items => list note items
  | signed _ sign operand => signed note sign operand
  | binary _ op left right => binary note op left right

end Expr

end Terse
