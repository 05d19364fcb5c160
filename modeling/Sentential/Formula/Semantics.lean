import Sentential.Assignment
import Sentential.Formula

/-!
Faults and truth values apart from each other: the faults of a formula under an assignment, in
reading order, and the value that it has where every name has one.
-/
namespace Sentential

/-- The value of a name. For a name without a value it is false, and a formula without faults has no
such name. -/
def Assignment.truth (s : Assignment) (name : Char) : Bool :=
  s.get? name == some true

namespace Formula

/-- A variable without a value is a fault, and so is a connective without all of its operands. A
connective comes before its operands, and the left operand before the right one. -/
def faults (s : Assignment) : Formula → List Error
  | .missing => []
  | .var name => if s.contains name then [] else [.unknownVariable name]
  | .not operand => (if operand.isMissing then [.invalidFormula] else []) ++ operand.faults s
  | .binary _ left right =>
    (if left.isMissing || right.isMissing then [.invalidFormula] else []) ++
      left.faults s ++ right.faults s

/-- The truth value that the connectives make of the values of the variables. -/
def value (truth : Char → Bool) : Formula → Bool
  | .missing => false
  | .var name => truth name
  | .not operand => !operand.value truth
  | .binary op left right => op.apply (left.value truth) (right.value truth)

end Formula

end Sentential
