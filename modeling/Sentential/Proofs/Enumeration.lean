import Sentential.Enumeration
import Sentential.Proofs.Numeral

/-!
What an enumeration still has to come, as a list. Whatever goes through an enumeration step by step
goes through this list, and at the start it holds all numerals of the width.
-/
namespace Sentential.Enumeration

variable {enumeration rest : Enumeration} {digits : Numeral}

/-- The values of the assignments still to come. -/
def values (enumeration : Enumeration) : List Numeral :=
  match enumeration.upcoming? with
  | some digits =>
    (List.range' digits.value enumeration.remaining).map (Numeral.ofNat digits.length)
  | none => []

theorem names_of_nextValues (next : enumeration.nextValues = (some digits, rest)) :
    rest.names = enumeration.names := by
  obtain ⟨-, rfl⟩ := step_of_nextValues next
  rfl

theorem values_of_nextValues (next : enumeration.nextValues = (some digits, rest)) :
    enumeration.values = digits :: rest.values := by
  have left := remaining_of_nextValues next
  obtain ⟨found, rfl⟩ := step_of_nextValues next
  simp only [values, found, left, List.range'_succ, List.map_cons, Numeral.ofNat_value]
  cases follows : digits.successor? with
  | none => simp [remaining]
  | some following =>
    simp only [Numeral.length_of_successor? follows, Numeral.value_of_successor? follows]

theorem values_of_done (done : enumeration.nextValues = (none, rest)) :
    enumeration.values = [] := by
  obtain ⟨found, -⟩ := step_of_done done
  simp only [values, found]

theorem values_ofNames (names : List Char) :
    (ofNames names).values = Numeral.all names.length := by
  simp [values, ofNames, remaining, Numeral.all, Numeral.value_zero, List.range_eq_range']

/-- A step takes the first of the values to come, and an enumeration that has none left stays as it
is. -/
theorem nextValues_cases (enumeration : Enumeration) :
    (∃ digits rest, enumeration.nextValues = (some digits, rest) ∧
      rest.names = enumeration.names ∧ enumeration.values = digits :: rest.values) ∨
    (enumeration.nextValues = (none, enumeration) ∧ enumeration.values = []) := by
  cases step : enumeration.nextValues with
  | mk digits? rest =>
    cases digits? with
    | some digits =>
      exact .inl ⟨digits, rest, rfl, names_of_nextValues step, values_of_nextValues step⟩
    | none =>
      obtain ⟨-, rfl⟩ := step_of_done step
      exact .inr ⟨rfl, values_of_done step⟩

theorem take_eq (enumeration : Enumeration) (count : Nat) :
    enumeration.take count =
      (enumeration.values.take count).map fun digits => .ofList (enumeration.names.zip digits) := by
  induction count generalizing enumeration with
  | zero => simp [take]
  | succ count ih =>
    rcases enumeration.nextValues_cases with ⟨digits, rest, step, names, values⟩ | ⟨step, values⟩
    · simp [take, next?, next, step, values, ih, names]
    · simp [take, next?, next, step, values]

theorem take_ofNames (names : List Char) :
    (ofNames names).take (2 ^ names.length) =
      (Numeral.all names.length).map fun digits => .ofList (names.zip digits) := by
  rw [take_eq, values_ofNames, ← Numeral.length_all, List.take_length]
  rfl

theorem names_drop (enumeration : Enumeration) (k : Nat) :
    (enumeration.drop k).names = enumeration.names := by
  induction k generalizing enumeration with
  | zero => rfl
  | succ k ih =>
    rcases enumeration.nextValues_cases with ⟨digits, rest, step, names, -⟩ | ⟨step, -⟩
    · simp only [drop, step, ih, names]
    · simp only [drop, step]

theorem values_drop (enumeration : Enumeration) (k : Nat) :
    (enumeration.drop k).values = enumeration.values.drop k := by
  induction k generalizing enumeration with
  | zero => rfl
  | succ k ih =>
    rcases enumeration.nextValues_cases with ⟨digits, rest, step, -, values⟩ | ⟨step, values⟩
    · simp only [drop, step, ih, values, List.drop_succ_cons]
    · simp only [drop, step, values, List.drop_nil]

theorem drop_drop (enumeration : Enumeration) (k count : Nat) :
    (enumeration.drop k).drop count = enumeration.drop (k + count) := by
  induction k generalizing enumeration with
  | zero => simp only [drop, Nat.zero_add]
  | succ k ih =>
    rw [Nat.succ_add]
    rcases enumeration.nextValues_cases with ⟨digits, rest, step, -⟩ | ⟨step, -⟩
    · simp only [drop, step, ih]
    · cases count <;> simp only [drop, step]

theorem next_eq (enumeration : Enumeration) :
    enumeration.next =
      (enumeration.values.head?.map fun digits => .ofList (enumeration.names.zip digits),
        enumeration.drop 1) := by
  rcases enumeration.nextValues_cases with ⟨digits, rest, step, -, values⟩ | ⟨step, values⟩
  · simp only [next, drop, step, values, List.head?_cons, Option.map_some]
  · simp only [next, drop, step, values, List.head?_nil, Option.map_none]

/-- After `k` steps the next one gives the `k`-th of the assignments that were to come before. -/
theorem next_drop (enumeration : Enumeration) (k : Nat) :
    (enumeration.drop k).next =
      (enumeration.values[k]?.map fun digits => .ofList (enumeration.names.zip digits),
        enumeration.drop (k + 1)) := by
  simp only [next_eq, values_drop, List.head?_drop, names_drop, drop_drop]

theorem next_of_values_eq_nil (done : enumeration.values = []) :
    enumeration.next = (none, enumeration) := by
  rcases enumeration.nextValues_cases with ⟨digits, rest, -, -, values⟩ | ⟨step, -⟩
  · simp [done] at values
  · simp only [next, step]

theorem length_take (enumeration : Enumeration) (count : Nat) :
    (enumeration.take count).length = min count enumeration.values.length := by
  simp only [take_eq, List.length_map, List.length_take]

end Sentential.Enumeration
