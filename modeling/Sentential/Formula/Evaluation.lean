import Sentential.Assignment
import Sentential.Formula

/-!
The value of a formula under an assignment, found without recursion into the formula: what is
still to be done and the values found so far are kept on two stacks. Faults are found in reading
order: a connective asks for all of its operands before any of them is evaluated, and both operands
are evaluated whatever the value of the first.
-/
namespace Sentential

/-- A number of truth values, the last of them on top. -/
inductive Values : Nat → Type
  | none : Values 0
  | push {count : Nat} (values : Values count) (top : Bool) : Values (count + 1)

/-- What is still to be done where a number of values is at hand, the next task first. A task takes
its operands off the values and puts one value back, and after the last one a single value is left:
no task ever finds fewer values than it takes. -/
inductive Agenda : Nat → Type
  | done : Agenda 1
  | evaluate {count : Nat} (e : Formula) (rest : Agenda (count + 1)) : Agenda count
  | not {count : Nat} (rest : Agenda (count + 1)) : Agenda (count + 1)
  | binary {count : Nat} (op : Connective) (rest : Agenda (count + 1)) : Agenda (count + 2)

namespace Agenda

/-- A node of a formula is taken up twice at most: to see its operands, and to apply it. -/
def work : {count : Nat} → Agenda count → Nat
  | _, .done => 0
  | _, .evaluate e rest => 2 * e.size + rest.work
  | _, .not rest | _, .binary _ rest => rest.work + 1

def run (s : Assignment) : {count : Nat} → Agenda count → Values count → Except Error Bool
  | _, .done, .push .none value => .ok value
  | _, .evaluate .missing _, _ => .error .invalidFormula
  | _, .evaluate (.var name) rest, values =>
    match s.get? name with
    | some value => rest.run s (values.push value)
    | none => .error (.unknownVariable name)
  | _, .evaluate (.not operand) rest, values =>
    if operand.isMissing then .error .invalidFormula
    else run s (.evaluate operand (.not rest)) values
  | _, .evaluate (.binary op left right) rest, values =>
    if left.isMissing || right.isMissing then .error .invalidFormula
    else run s (.evaluate left (.evaluate right (.binary op rest))) values
  | _, .not rest, .push values value => rest.run s (values.push !value)
  | _, .binary op rest, .push (.push values l) r => rest.run s (values.push (op.apply l r))
termination_by _ tasks => tasks.work
decreasing_by all_goals simp only [work, Formula.size]; omega

end Agenda

def Formula.eval (s : Assignment) (e : Formula) : Except Error Bool :=
  Agenda.run s (.evaluate e .done) .none

end Sentential
