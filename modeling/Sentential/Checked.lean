import Sentential.Enumeration
import Sentential.Formula.Reading
import Sentential.TruthTable

/-!
Operations that check how they are used. Each of them answers as the operation of the same name
does without the check, unless its argument is one that no correct caller passes; then it stops
before any answer is found.
-/
namespace Sentential.Checked

/-- The first variable of a list that comes again later. -/
def firstRepeated? : List Char → Option Char
  | [] => none
  | name :: names => if names.contains name then some name else firstRepeated? names

def refuseRepeats (names : List Char) : Except Misuse Unit :=
  match firstRepeated? names with
  | some name => .error (.repeatedVariable name)
  | none => .ok ()

/-- The same manner of reading, except that a parenthesis by itself is a misuse: matching
parentheses leaves none, so it was put there by hand. -/
def refuseLone {ε : Type} (manner : Manner ε) : Manner (Misuse ⊕ ε) where
  skip items := (manner.skip items).mapError .inr
  gap := manner.gap.mapError .inr
  lone t := .error (.inl (.loneParenthesis t))

def readItems {ε : Type} (manner : Manner ε) (items : List Item) :
    Except Misuse (Except ε Formula) :=
  match (refuseLone manner).read [] items with
  | .ok e => .ok (.ok e)
  | .error (.inl misuse) => .error misuse
  | .error (.inr fault) => .ok (.error fault)

def ofItems (items : List Item) : Except Misuse Formula :=
  (readItems .lenient items).map certain

def ofTokens (tokens : List Token) : Except Misuse (Except Error Formula) :=
  match Item.ofTokens tokens with
  | .ok items => return .ok (← ofItems items)
  | .error fault => .ok (.error fault)

def read (text : String) : Except Misuse (Except Error Formula) :=
  match Item.ofTokens (Token.ofText text) with
  | .ok items => readItems .strict items
  | .error fault => .ok (.error fault)

def enumeration (names : List Char) : Except Misuse Enumeration := do
  refuseRepeats names
  return .ofNames names

def tableOver (e : Formula) (names : List Char) : Except Misuse (Except Error TruthTable) := do
  refuseRepeats names
  return TruthTable.ofFormula e names

def truthTable (e : Formula) : Except Misuse (Except Error TruthTable) :=
  tableOver e e.names

def isTautology (e : Formula) : Except Misuse (Except Error Bool) :=
  return (← truthTable e).map (·.allTrue)

def isSatisfiable (e : Formula) : Except Misuse (Except Error Bool) :=
  return (← truthTable e).map (·.anyTrue)

end Sentential.Checked
