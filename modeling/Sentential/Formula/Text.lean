import Sentential.Formula

/-!
The written form of a formula. A connective with two operands always has parentheses around it and
an absent operand is written as empty parentheses, so the text says all there is to the formula.
-/
namespace Sentential

/-- A part of a written form: a formula, or what stands between and after two operands. -/
inductive Piece
  | formula (e : Formula)
  | connective (op : Connective)
  | close

namespace Piece

/-- Every node of a formula is written, and one of two operands leaves a connective and a
parenthesis to be written besides. -/
def work : List Piece → Nat
  | [] => 0
  | .formula e :: pieces => 3 * e.size + work pieces
  | .connective _ :: pieces | .close :: pieces => 1 + work pieces

/-- Writes the pieces in turn, after the characters written so far, the last of which comes
first. -/
def write (written : List Char) : List Piece → List Char
  | [] => written.reverse
  | .formula .missing :: pieces => write (')' :: '(' :: written) pieces
  | .formula (.var name) :: pieces => write (name :: written) pieces
  | .formula (.not operand) :: pieces =>
    write (Operator.not.symbol :: written) (.formula operand :: pieces)
  | .formula (.binary op left right) :: pieces =>
    write ('(' :: written) (.formula left :: .connective op :: .formula right :: .close :: pieces)
  | .connective op :: pieces => write (' ' :: op.symbol :: ' ' :: written) pieces
  | .close :: pieces => write (')' :: written) pieces
termination_by pieces => work pieces
decreasing_by all_goals simp only [work, Formula.size]; omega

end Piece

def Formula.text (e : Formula) : String :=
  String.ofList (Piece.write [] [.formula e])

end Sentential
