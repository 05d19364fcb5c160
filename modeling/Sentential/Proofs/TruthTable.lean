import Sentential.Proofs.Assignment
import Sentential.Proofs.Enumeration
import Sentential.Proofs.Evaluation
import Sentential.TruthTable

/-!
A truth table holds the values of its formula. It has a row for every numeral as wide as the list of
variables, with the value of the formula under the assignment of these digits, provided that the
formula is complete and the list has all of its variables. Otherwise the first row fails. Every
assignment of the listed variables, whatever else it assigns, has its values in one of the rows.
-/
namespace Sentential

variable {e : Formula} {names : List Char} {digits : Numeral} {s : Assignment} {name : Char}
  {fault : Error} {table : TruthTable}

/-- The row of a formula for the given values of the listed variables. -/
def Formula.row (e : Formula) (names : List Char) (digits : Numeral) : Row :=
  ⟨digits, e.value (Assignment.ofList (names.zip digits)).truth⟩

/-- The rows of a formula for all values of the listed variables. -/
def Formula.rows (e : Formula) (names : List Char) : List Row :=
  (Numeral.all names.length).map (e.row names)

theorem Formula.length_rows (e : Formula) (names : List Char) :
    (e.rows names).length = 2 ^ names.length := by
  rw [rows, List.length_map, Numeral.length_all]

theorem Formula.getElem?_rows {k : Nat} (within : k < 2 ^ names.length) :
    (e.rows names)[k]? = some (e.row names (Numeral.ofNat names.length k)) := by
  rw [rows, List.getElem?_map, Numeral.getElem?_all within]
  rfl

/-- In the row for given values of the variables a formula has its value for these. -/
theorem Formula.result_row (covered : ∀ name ∈ e.occurrences, name ∈ names)
    (truth : Char → Bool) : (e.row names (names.map truth)).result = e.value truth := by
  apply value_congr
  intro name member
  exact Assignment.truth_zip_map truth (covered name member)

section Covered

variable (complete : e.isComplete = true) (covered : ∀ name ∈ e.occurrences, name ∈ names)
include complete covered

theorem Formula.eval_zip (width : digits.length = names.length) :
    e.eval (.ofList (names.zip digits)) = .ok (e.row names digits).result :=
  eval_of_known complete ((Assignment.known_zip_iff width).mpr covered)

/-- Under an assignment of all listed variables, a formula has the value that its row has. -/
theorem Formula.eval_eq_result (known : ∀ name ∈ names, s.contains name = true) :
    e.eval s = .ok (e.row names (names.map s.truth)).result := by
  rw [result_row covered]
  apply eval_of_known complete
  intro name member
  exact known name (covered name member)

namespace TruthTable

theorem rowsFrom_eq_ok {assignments : Enumeration} {rows : List Row}
    (width : ∀ digits ∈ assignments.values, digits.length = names.length) :
    rowsFrom e names assignments rows =
      .ok (rows.reverse ++ assignments.values.map (e.row names)) := by
  fun_induction rowsFrom e names assignments rows with
  | case1 assignments rows digits rest next ih =>
    rw [Enumeration.values_of_nextValues next] at width ⊢
    obtain ⟨first, others⟩ := List.forall_mem_cons.mp width
    rw [Formula.eval_zip complete covered first]
    simp [bind, Except.bind, ih _ others, Formula.row]
  | case2 assignments rows rest done =>
    rw [Enumeration.values_of_done done]
    simp [pure, Except.pure]

theorem ofFormula_eq_ok : ofFormula e names = .ok ⟨names, e.rows names⟩ := by
  have width : ∀ digits ∈ (Enumeration.ofNames names).values, digits.length = names.length := by
    intro digits member
    rw [Enumeration.values_ofNames] at member
    exact Numeral.mem_all_iff.mp member
  rw [ofFormula, rowsFrom_eq_ok complete covered width, Enumeration.values_ofNames]
  rfl

end TruthTable

end Covered

namespace TruthTable

theorem rowsFrom_eq_error {assignments rest : Enumeration}
    (next : assignments.nextValues = (some digits, rest))
    (failed : e.eval (.ofList (names.zip digits)) = .error fault) (rows : List Row) :
    rowsFrom e names assignments rows = .error fault := by
  rw [rowsFrom]
  split
  next found =>
    obtain ⟨same, rfl⟩ := Prod.mk.inj (next.symm.trans found)
    obtain rfl := Option.some.inj same
    rw [failed]
    rfl
  next done => simp [next] at done

/-- A table that fails does so at its first row. -/
theorem ofFormula_eq_error
    (failed : e.eval (.ofList (names.zip (Numeral.zero names.length))) = .error fault) :
    ofFormula e names = .error fault := by
  have next : (Enumeration.ofNames names).nextValues =
      (some (.zero names.length), ⟨names, (Numeral.zero names.length).successor?⟩) := rfl
  rw [ofFormula, rowsFrom_eq_error next failed]
  rfl

/-- A formula that has a value in the first row has one in every row. -/
theorem complete_of_first_row {value : Bool}
    (first : e.eval (.ofList (names.zip (Numeral.zero names.length))) = .ok value) :
    e.isComplete = true ∧ ∀ name ∈ e.occurrences, name ∈ names := by
  obtain ⟨complete, assigned, -⟩ := Formula.eval_eq_ok_iff.mp first
  exact ⟨complete, (Assignment.known_zip_iff (Numeral.length_zero _)).mp assigned⟩

theorem ofFormula_eq_ok_iff : ofFormula e names = .ok table ↔
    e.isComplete = true ∧ (∀ name ∈ e.occurrences, name ∈ names) ∧
      table = ⟨names, e.rows names⟩ := by
  constructor
  · intro tabulated
    cases first : e.eval (.ofList (names.zip (Numeral.zero names.length))) with
    | error fault => simp [ofFormula_eq_error first] at tabulated
    | ok value =>
      obtain ⟨complete, covered⟩ := complete_of_first_row first
      rw [ofFormula_eq_ok complete covered] at tabulated
      exact ⟨complete, covered, (Except.ok.inj tabulated).symm⟩
  · rintro ⟨complete, covered, rfl⟩
    exact ofFormula_eq_ok complete covered

theorem ofFormula_eq_error_iff : ofFormula e names = .error fault ↔
    e.eval (.ofList (names.zip (Numeral.zero names.length))) = .error fault := by
  constructor
  · intro failed
    cases first : e.eval (.ofList (names.zip (Numeral.zero names.length))) with
    | error other =>
      have same := (ofFormula_eq_error first).symm.trans failed
      exact congrArg Except.error (Except.error.inj same)
    | ok value =>
      obtain ⟨complete, covered⟩ := complete_of_first_row first
      rw [ofFormula_eq_ok complete covered] at failed
      contradiction
  · exact ofFormula_eq_error

theorem getElem?_take_ofNames {k : Nat} (within : k < 2 ^ names.length) :
    ((Enumeration.ofNames names).take (2 ^ names.length))[k]? =
      some (.ofList (names.zip (Numeral.ofNat names.length k))) := by
  rw [Enumeration.take_ofNames, List.getElem?_map, Numeral.getElem?_all within]
  rfl

/-- The values of the listed variables, read as a numeral, say in which row they stand. -/
theorem eq_value_of_values_eq {k : Nat} {row : Row}
    (known : ∀ name ∈ names, s.contains name = true) (found : (e.rows names)[k]? = some row)
    (same : row.values.map some = names.map s.get?) : k = Numeral.value (names.map s.truth) := by
  have within : k < 2 ^ names.length := by
    rw [← e.length_rows names]
    exact (List.getElem?_eq_some_iff.mp found).1
  rw [Formula.getElem?_rows within] at found
  obtain rfl := Option.some.inj found
  rw [← Assignment.map_truth_eq known] at same
  have digits : Numeral.ofNat names.length k = names.map s.truth :=
    (List.map_inj_right fun _ _ => Option.some.inj).mp same
  rw [← digits, Numeral.value_ofNat, Numeral.count_eq_two_pow, Nat.mod_eq_of_lt within]

theorem getElem?_rows_value (e : Formula) (names : List Char) (s : Assignment) :
    (e.rows names)[Numeral.value (names.map s.truth)]? =
      some (e.row names (names.map s.truth)) := by
  have width : (names.map s.truth).length = names.length := List.length_map _
  have within : Numeral.value (names.map s.truth) < 2 ^ names.length := by
    rw [← Numeral.count_eq_two_pow, ← width]
    exact Numeral.value_lt _
  have place := Numeral.ofNat_value (names.map s.truth)
  rw [width] at place
  rw [Formula.getElem?_rows within, place]

/-- A truth table keeps to the evaluation of its formula. Its rows are the numerals in turn, each
with the value under the assignment that an enumeration gives at that place. An assignment of the
listed variables, among others perhaps, finds its values in one row and in no other, and the formula
has the value of this row under it. Variables may be listed more than once. -/
theorem rows_follow_evaluation (tabulated : ofFormula e names = .ok table) :
    table.names = names ∧ table.rows.length = 2 ^ names.length ∧
    (∀ k < 2 ^ names.length, ∃ s result,
      ((Enumeration.ofNames names).take (2 ^ names.length))[k]? = some s ∧
      e.eval s = .ok result ∧ table.rows[k]? = some ⟨Numeral.ofNat names.length k, result⟩) ∧
    ∀ s : Assignment, (∀ name ∈ names, s.contains name = true) →
      ∃ (k : Nat) (row : Row), table.rows[k]? = some row ∧
        row.values.map some = names.map s.get? ∧ e.eval s = .ok row.result ∧
        ∀ (j : Nat) (other : Row), table.rows[j]? = some other →
          other.values.map some = names.map s.get? → j = k := by
  obtain ⟨complete, covered, rfl⟩ := ofFormula_eq_ok_iff.mp tabulated
  refine ⟨rfl, e.length_rows names, ?_, ?_⟩
  · intro k within
    have result := Formula.eval_zip complete covered (Numeral.length_ofNat names.length k)
    exact ⟨_, _, getElem?_take_ofNames within, result, Formula.getElem?_rows within⟩
  · intro s known
    have result := Formula.eval_eq_result complete covered known
    refine ⟨_, _, getElem?_rows_value e names s, Assignment.map_truth_eq known, result, ?_⟩
    intro j other found same
    exact eq_value_of_values_eq known found same

theorem doubled_variable_in_last_row :
    ofFormula (.not (.var 'p')) ['p', 'p'] =
      .ok ⟨['p', 'p'], [⟨[false, false], true⟩, ⟨[false, true], false⟩, ⟨[true, false], true⟩,
        ⟨[true, true], false⟩]⟩ ∧
    (∀ name ∈ ['p', 'p'], (Assignment.ofList [('z', false), ('p', true)]).contains name = true) ∧
    ∃ (k : Nat) (row : Row),
      [(⟨[false, false], true⟩ : Row), ⟨[false, true], false⟩, ⟨[true, false], true⟩,
        ⟨[true, true], false⟩][k]? = some row ∧
      row.values.map some = ['p', 'p'].map (Assignment.ofList [('z', false), ('p', true)]).get? ∧
      Formula.eval (.ofList [('z', false), ('p', true)]) (.not (.var 'p')) = .ok row.result := by
  have tabulated : ofFormula (.not (.var 'p')) ['p', 'p'] =
      .ok ⟨['p', 'p'], [⟨[false, false], true⟩, ⟨[false, true], false⟩, ⟨[true, false], true⟩,
        ⟨[true, true], false⟩]⟩ := by
    rw [ofFormula_eq_ok (by simp) (by simp [Formula.occurrences])]
    rfl
  have known : ∀ name ∈ ['p', 'p'],
      (Assignment.ofList [('z', false), ('p', true)]).contains name = true := by
    simp [Assignment.contains_ofList_iff]
  obtain ⟨_, _, _, image⟩ := rows_follow_evaluation tabulated
  obtain ⟨k, row, found, values, result, _⟩ := image _ known
  exact ⟨tabulated, known, k, row, found, values, result⟩

end TruthTable

end Sentential
