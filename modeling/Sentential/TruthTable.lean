import Sentential.Enumeration
import Sentential.Formula.Evaluation

/-!
Truth tables. There is a row for every assignment of the listed variables, in the order in which
they are enumerated, and the table of a formula over its own variables decides whether it is a
tautology and whether it can be satisfied.
-/
namespace Sentential

structure Row where
  values : List Bool
  result : Bool
  deriving DecidableEq

structure TruthTable where
  names : List Char
  rows : List Row
  deriving DecidableEq

namespace TruthTable

/-- The rows for the assignments that are still to come, after the rows found so far, the last of
which comes first. The first assignment under which the formula has no value ends it all. -/
def rowsFrom (e : Formula) (names : List Char) (assignments : Enumeration) (rows : List Row) :
    Except Error (List Row) :=
  match _ : assignments.nextValues with
  | (some digits, rest) => do
    let result ← e.eval (.ofList (names.zip digits))
    rowsFrom e names rest (⟨digits, result⟩ :: rows)
  | (none, _) => return rows.reverse
termination_by assignments.remaining
decreasing_by exact Enumeration.remaining_lt_of_nextValues ‹_›

def ofFormula (e : Formula) (names : List Char) : Except Error TruthTable :=
  return ⟨names, ← rowsFrom e names (.ofNames names) []⟩

def allTrue (table : TruthTable) : Bool :=
  table.rows.all (·.result)

def anyTrue (table : TruthTable) : Bool :=
  table.rows.any (·.result)

end TruthTable

namespace Formula

def truthTable (e : Formula) : Except Error TruthTable :=
  TruthTable.ofFormula e e.names

def isTautology (e : Formula) : Except Error Bool :=
  e.truthTable.map (·.allTrue)

def isSatisfiable (e : Formula) : Except Error Bool :=
  e.truthTable.map (·.anyTrue)

end Formula

end Sentential
