import Sentential.Assignment
import Sentential.Numeral

/-!
The assignments of a list of variables, one after the other as numerals count them: the first
makes every variable false, and the first variable is the most significant digit. A variable that
is listed twice has two digits, of which the last gives its value.
-/
namespace Sentential

/-- An enumeration in progress. There is no numeral to come once all assignments have been
visited. -/
structure Enumeration where
  names : List Char
  upcoming? : Option Numeral

namespace Enumeration

def ofNames (names : List Char) : Enumeration :=
  ⟨names, some (.zero names.length)⟩

/-- One step: the values of the next assignment in the order of the names, if there is one, and the
enumeration as the step leaves it. The values are found one step ahead. Once all assignments have
been visited, a step changes nothing. -/
def nextValues (enumeration : Enumeration) : Option Numeral × Enumeration :=
  match enumeration.upcoming? with
  | some digits => (some digits, ⟨enumeration.names, digits.successor?⟩)
  | none => (none, enumeration)

/-- One step, with the assignment that its values make. -/
def next (enumeration : Enumeration) : Option Assignment × Enumeration :=
  match enumeration.nextValues with
  | (some digits, rest) => (some (.ofList (enumeration.names.zip digits)), rest)
  | (none, rest) => (none, rest)

/-- The next assignment and the enumeration of those after it, where one is still to come. -/
def next? (enumeration : Enumeration) : Option (Assignment × Enumeration) :=
  match enumeration.next with
  | (some s, rest) => some (s, rest)
  | (none, _) => none

/-- How many assignments are still to come. -/
def remaining (enumeration : Enumeration) : Nat :=
  match enumeration.upcoming? with
  | some digits => Numeral.count digits.length - digits.value
  | none => 0

/-- Takes `count` steps, or as many as there are assignments to come. -/
def drop (enumeration : Enumeration) : Nat → Enumeration
  | 0 => enumeration
  | count + 1 =>
    match enumeration.nextValues with
    | (some _, rest) => rest.drop count
    | (none, rest) => rest

/-- The next assignments, at most `count` of them. -/
def take (enumeration : Enumeration) : Nat → List Assignment
  | 0 => []
  | count + 1 =>
    match enumeration.next? with
    | some (s, rest) => s :: rest.take count
    | none => []

variable {enumeration rest : Enumeration} {digits : Numeral}

/-- A step gives the numeral that was found ahead, and finds the one after it. -/
theorem step_of_nextValues (next : enumeration.nextValues = (some digits, rest)) :
    enumeration.upcoming? = some digits ∧ rest = ⟨enumeration.names, digits.successor?⟩ := by
  unfold nextValues at next
  split at next
  next upcoming found =>
    obtain ⟨same, rfl⟩ := Prod.mk.inj next
    obtain rfl := Option.some.inj same
    exact ⟨found, rfl⟩
  next => simp at next

/-- Where there is none to give, none is found. -/
theorem step_of_done (done : enumeration.nextValues = (none, rest)) :
    enumeration.upcoming? = none ∧ rest = enumeration := by
  unfold nextValues at done
  split at done
  next => simp at done
  next found => exact ⟨found, (Prod.mk.inj done).2.symm⟩

theorem remaining_of_nextValues (next : enumeration.nextValues = (some digits, rest)) :
    enumeration.remaining = rest.remaining + 1 := by
  obtain ⟨found, rfl⟩ := step_of_nextValues next
  have bound := digits.value_lt
  cases follows : digits.successor? with
  | none =>
    have last := Numeral.value_of_no_successor follows
    simp only [remaining, found]
    omega
  | some following =>
    have length := Numeral.length_of_successor? follows
    have value := Numeral.value_of_successor? follows
    simp only [remaining, found, length, value]
    omega

theorem remaining_lt_of_nextValues (next : enumeration.nextValues = (some digits, rest)) :
    rest.remaining < enumeration.remaining := by
  rw [remaining_of_nextValues next]
  exact Nat.lt_succ_self _

end Enumeration

end Sentential
