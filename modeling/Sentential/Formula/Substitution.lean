import Sentential.Formula

/-!
Replacing parts of a formula: every occurrence of a variable, or what stands at one chosen place.
The same is done to a text by writing another text, in parentheses, for a character.
-/
namespace Sentential

namespace Formula

/-- Puts `f` for every occurrence of the variable `name`. -/
def subst (name : Char) (f : Formula) : Formula → Formula
  | .missing => .missing
  | .var other => if other = name then f else .var other
  | .not operand => .not (subst name f operand)
  | .binary op left right => .binary op (subst name f left) (subst name f right)

/-- Writes `inner` in parentheses for every occurrence of the character `name`. -/
def substText (name : Char) (inner text : String) : String :=
  String.ofList <| text.toList.flatMap fun c =>
    if c = name then '(' :: (inner.toList ++ [')']) else [c]

/-- A formula with one place left open. -/
inductive Context
  | here
  | not (hole : Context)
  | left (op : Connective) (hole : Context) (operand : Formula)
  | right (op : Connective) (operand : Formula) (hole : Context)

/-- The formula with `e` at the open place. -/
def Context.fill (e : Formula) : Context → Formula
  | .here => e
  | .not hole => .not (hole.fill e)
  | .left op hole operand => .binary op (hole.fill e) operand
  | .right op operand hole => .binary op operand (hole.fill e)

end Formula

end Sentential
