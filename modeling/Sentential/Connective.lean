/-!
The connectives of propositional logic: their symbols, how tightly they bind and the truth
functions they stand for. Negation is kept apart from the eight connectives with two operands.
-/
namespace Sentential

/-- A connective with two operands. -/
inductive Connective
  | and | or | xor | nor | nand | implies | impliedBy | iff
  deriving DecidableEq

namespace Connective

/-- Every connective once, in the order that numbers them. -/
def all : List Connective :=
  [.and, .or, .xor, .nor, .nand, .implies, .impliedBy, .iff]

def index (op : Connective) : Nat :=
  all.idxOf op

def symbol : Connective → Char
  | .and => '∧'
  | .or => '∨'
  | .xor => '⊕'
  | .nor => '↓'
  | .nand => '↑'
  | .implies => '→'
  | .impliedBy => '←'
  | .iff => '↔'

/-- The greater the precedence, the looser a connective holds its operands. -/
def precedence : Connective → Nat
  | .and | .nand | .xor => 2
  | .or | .nor => 3
  | .implies | .impliedBy => 4
  | .iff => 5

def apply : Connective → Bool → Bool → Bool
  | .and, l, r => l && r
  | .or, l, r => l || r
  | .xor, l, r => l != r
  | .nor, l, r => !(l || r)
  | .nand, l, r => !(l && r)
  | .implies, l, r => !l || r
  | .impliedBy, l, r => l || !r
  | .iff, l, r => l == r

/-- Every connective holds its operands looser than a negation does. -/
theorem one_lt_precedence (op : Connective) : 1 < op.precedence := by
  cases op <;> decide

end Connective

/-- What a formula is built with: negation, or a connective with two operands. -/
inductive Operator
  | not
  | binary (op : Connective)
  deriving DecidableEq

namespace Operator

def symbol : Operator → Char
  | .not => '¬'
  | .binary op => op.symbol

/-- Negation holds its operand tighter than every other connective. -/
def precedence : Operator → Nat
  | .not => 1
  | .binary op => op.precedence

/-- The values of an operator on all choices of its operands, counted in binary from all false. -/
def table : Operator → List Bool
  | .not => [false, true].map (!·)
  | .binary op =>
    [(false, false), (false, true), (true, false), (true, true)].map fun (l, r) => op.apply l r

theorem precedence_pos (op : Operator) : 0 < op.precedence := by
  cases op with
  | not => decide
  | binary op => cases op <;> decide

end Operator

end Sentential
