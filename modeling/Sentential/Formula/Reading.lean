import Sentential.Formula
import Sentential.MainConnective

/-!
Reading a formula from a text, from tokens or from items. A sequence of items is taken apart at its
main connective. Only what stands before a connective with two operands is read by itself. All that
follows is read on in one go, with the connectives met on the way kept for later, and the formula is
put together from its last operand outwards. A lenient reading takes whatever can be made of its
input and leaves gaps for the rest; a strict reading refuses an input of which something would be
lost.
-/
namespace Sentential

/-- A connective that waits for its last operand. -/
inductive Pending
  | not
  | binary (op : Connective) (left : Formula)

namespace Pending

def apply : Pending → Formula → Formula
  | .not, operand => .not operand
  | .binary op left, right => .binary op left right

/-- Gives a formula to the first of the connectives, what that makes of it to the next, and so
on. -/
def applyAll (pending : List Pending) (e : Formula) : Formula :=
  pending.foldl (fun operand connective => connective.apply operand) e

end Pending

/-- What a reading makes of the three things that it may come upon and that have no place in a
formula: the items before a negation, a part that is no formula, and a parenthesis that is a token
by itself. It passes over them or it stops. -/
structure Manner (ε : Type) where
  skip : List Item → Except ε Unit
  gap : Except ε Unit
  lone : Token → Except ε Unit

namespace Manner

/-- Stops at nothing. -/
def lenient : Manner Empty where
  skip _ := .ok ()
  gap := .ok ()
  lone _ := .ok ()

/-- Stops at anything that would be lost and at any operand that is absent. -/
def strict : Manner Error where
  skip items := if items.isEmpty then .ok () else .error .invalidFormula
  gap := .error .invalidFormula
  lone _ := .ok ()

variable {ε : Type}

/-- Reads items as the last operand of the innermost of the connectives around them, which come
innermost first. -/
def read (manner : Manner ε) (pending : List Pending) (items : List Item) : Except ε Formula :=
  match _ : Split.ofItems? items with
  | some split =>
    match split.operator with
    | .not => do
      manner.skip split.before
      manner.read (.not :: pending) split.after
    | .binary op => do
      let left ← manner.read [] split.before
      manner.read (.binary op left :: pending) split.after
  | none =>
    match items with
    | [.group content] => manner.read pending content
    | [.token (.var name)] => return Pending.applyAll pending (.var name)
    | [.token t] => do
      manner.lone t
      manner.gap
      return Pending.applyAll pending .missing
    | _ => do
      manner.gap
      return Pending.applyAll pending .missing
termination_by (Item.flatten items).length
decreasing_by
  · exact Split.flatten_after_lt ‹_›
  · exact Split.flatten_before_lt ‹_›
  · exact Split.flatten_after_lt ‹_›
  · exact Item.length_flatten_lt_group _

end Manner

/-- The result of what has nothing to fail with. -/
def certain {α : Type} : Except Empty α → α
  | .ok a => a

namespace Formula

def ofItems (items : List Item) : Formula :=
  certain (Manner.lenient.read [] items)

/-- The lenient reading of a token sequence, which fails only where parentheses do not match. -/
def ofTokens (tokens : List Token) : Except Error Formula := do
  let items ← Item.ofTokens tokens
  return ofItems items

/-- The strict reading of a text. Parentheses are matched before anything else is judged. -/
def read (text : String) : Except Error Formula := do
  let items ← Item.ofTokens (Token.ofText text)
  Manner.strict.read [] items

end Formula

end Sentential
