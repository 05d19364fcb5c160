import Sentential.Formula

/-!
The variables and operators of a formula in the order in which they are read: a negation before
its operand, a connective between its operands. Parentheses and gaps leave no trace in it.
-/
namespace Sentential.Formula

def yield : Formula → List Token
  | .missing => []
  | .var name => [.var name]
  | .not operand => .operator .not :: operand.yield
  | .binary op left right => left.yield ++ .operator (.binary op) :: right.yield

end Sentential.Formula
