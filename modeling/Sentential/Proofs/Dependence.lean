import Sentential.Proofs.Names

/-!
Evaluation depends on the listed variables only. Two assignments that treat the variables of a
formula alike are not told apart by it, in its faults no more than in its values. So a table over
more variables, or over the same ones in another order, says nothing new: each of its rows repeats
the result of the row with the same values in the formula's own table.
-/
namespace Sentential

variable {e : Formula} {names others : List Char} {digits : Numeral} {s t : Assignment}
  {name : Char}

/-- What a row over `names` has for each of the names `others`. -/
def Row.project (row : Row) (names others : List Char) : List (Option Bool) :=
  others.map fun name => row.values[names.idxOf name]?

namespace Assignment

theorem contains_congr (same : s.get? name = t.get? name) : s.contains name = t.contains name := by
  rw [contains, contains, same]

theorem truth_congr (same : s.get? name = t.get? name) : s.truth name = t.truth name := by
  rw [truth, truth, same]

end Assignment

namespace Formula

/-- A formula is evaluated in the same way under assignments that agree on its names, be it by a
value or by having none. -/
theorem eval_congr (agree : ∀ name ∈ e.names, s.get? name = t.get? name) : e.eval s = e.eval t := by
  have same : ∀ name ∈ e.occurrences, s.get? name = t.get? name :=
    fun name member => agree name (names_cover e name member)
  have faults : e.faults s = e.faults t :=
    faults_congr fun name member => Assignment.contains_congr (same name member)
  have value : e.value s.truth = e.value t.truth :=
    value_congr fun name member => Assignment.truth_congr (same name member)
  exact eval_eq_eval rfl (congrArg List.head? faults) value

/-- A row is made from an assignment, of which it shows the values. -/
theorem project_row (distinct : names.Nodup) (width : digits.length = names.length)
    (listed : ∀ name ∈ others, name ∈ names) :
    (e.row names digits).project names others =
      others.map (Assignment.ofList (names.zip digits)).get? := by
  apply List.map_congr_left
  intro name member
  have place := List.getElem?_idxOf (listed name member)
  exact (Assignment.get?_zip_of_lastAt width (lastAt_of_nodup distinct place)).symm

/-- The values that a row has for the names of the formula stand in one row of the formula's own
table and in no other, with the same result. -/
theorem exists_own_row (distinct : names.Nodup) (covered : ∀ name ∈ e.names, name ∈ names)
    {row : Row} (member : row ∈ e.rows names) :
    ∃ (k : Nat) (own : Row), (e.rows e.names)[k]? = some own ∧
      own.values.map some = row.project names e.names ∧ own.result = row.result ∧
      ∀ (j : Nat) (other : Row), (e.rows e.names)[j]? = some other →
        other.values.map some = row.project names e.names → j = k := by
  obtain ⟨digits, width, rfl⟩ := mem_rows_iff.mp member
  have known := (Assignment.known_zip_iff width).mpr covered
  rw [project_row distinct width covered]
  refine ⟨_, _, TruthTable.getElem?_rows_value e e.names (.ofList (names.zip digits)),
    Assignment.map_truth_eq known, result_row (names_cover e) _, ?_⟩
  intro j other found same
  exact TruthTable.eq_value_of_values_eq known found same

/-- Evaluation depends on the names of the formula only: where two assignments agree on these it
ends alike, with a fault as well as with a value. So a complete formula has, over any list of
distinct names that has its own among them, a table of which each row has the result of the one row
of the formula's own table that has the same values. -/
theorem evaluation_depends_on_names (e : Formula) :
    (∀ s t : Assignment, (∀ name ∈ e.names, s.get? name = t.get? name) → e.eval s = e.eval t) ∧
    ∀ names : List Char, e.isComplete = true → names.Nodup → (∀ name ∈ e.names, name ∈ names) →
      ∃ table ownTable, TruthTable.ofFormula e names = .ok table ∧ e.truthTable = .ok ownTable ∧
        ∀ row ∈ table.rows, ∃ (k : Nat) (own : Row), ownTable.rows[k]? = some own ∧
          own.values.map some = row.project names e.names ∧ own.result = row.result ∧
          ∀ (j : Nat) (other : Row), ownTable.rows[j]? = some other →
            other.values.map some = row.project names e.names → j = k := by
  refine ⟨fun s t => eval_congr, ?_⟩
  intro names complete distinct covered
  have tabulated := TruthTable.ofFormula_eq_ok complete
    fun name member => covered name (names_cover e name member)
  exact ⟨_, _, tabulated, truthTable_of_complete complete,
    fun row member => exists_own_row distinct covered member⟩

/-- A variable that has no value under either of two assignments, two others that make the formula
true, and a table with a column too many and the others the other way round. -/
theorem implication_with_other_columns :
    (∀ name ∈ Formula.names (.binary .implies (.var 'p') (.var 'q')),
      (Assignment.ofList [('p', true)]).get? name =
        (Assignment.ofList [('r', false), ('p', true)]).get? name) ∧
    eval (.ofList [('p', true)]) (.binary .implies (.var 'p') (.var 'q')) =
      eval (.ofList [('r', false), ('p', true)]) (.binary .implies (.var 'p') (.var 'q')) ∧
    (∀ name ∈ Formula.names (.binary .implies (.var 'p') (.var 'q')),
      (Assignment.ofList [('p', false), ('q', false)]).get? name =
        (Assignment.ofList [('q', false), ('r', true), ('p', false)]).get? name) ∧
    eval (.ofList [('p', false), ('q', false)]) (.binary .implies (.var 'p') (.var 'q')) =
      .ok true ∧
    eval (.ofList [('q', false), ('r', true), ('p', false)])
      (.binary .implies (.var 'p') (.var 'q')) = .ok true ∧
    isComplete (.binary .implies (.var 'p') (.var 'q')) = true ∧ ['r', 'q', 'p'].Nodup ∧
    (∀ name ∈ Formula.names (.binary .implies (.var 'p') (.var 'q')), name ∈ ['r', 'q', 'p']) ∧
    ∃ table ownTable,
      TruthTable.ofFormula (.binary .implies (.var 'p') (.var 'q')) ['r', 'q', 'p'] = .ok table ∧
      truthTable (.binary .implies (.var 'p') (.var 'q')) = .ok ownTable ∧
      (⟨[true, false, true], false⟩ : Row) ∈ table.rows ∧
      ∃ own ∈ ownTable.rows, own.values = [true, false] ∧ own.result = false := by
  have listed : Formula.names (.binary .implies (.var 'p') (.var 'q')) = ['p', 'q'] := by
    simp [Formula.names, collect]
  obtain ⟨alike, tables⟩ := evaluation_depends_on_names (.binary .implies (.var 'p') (.var 'q'))
  have agree : ∀ name ∈ Formula.names (.binary .implies (.var 'p') (.var 'q')),
      (Assignment.ofList [('p', true)]).get? name =
        (Assignment.ofList [('r', false), ('p', true)]).get? name := by
    rw [listed, List.forall_mem_cons, List.forall_mem_singleton]
    exact ⟨rfl, rfl⟩
  have agreeFalse : ∀ name ∈ Formula.names (.binary .implies (.var 'p') (.var 'q')),
      (Assignment.ofList [('p', false), ('q', false)]).get? name =
        (Assignment.ofList [('q', false), ('r', true), ('p', false)]).get? name := by
    rw [listed, List.forall_mem_cons, List.forall_mem_singleton]
    exact ⟨rfl, rfl⟩
  have holds : eval (.ofList [('p', false), ('q', false)])
      (.binary .implies (.var 'p') (.var 'q')) = .ok true := eval_of_faultless (by simp) rfl
  have complete : isComplete (.binary .implies (.var 'p') (.var 'q')) = true := by simp
  have distinct : ['r', 'q', 'p'].Nodup := by decide
  have covered : ∀ name ∈ Formula.names (.binary .implies (.var 'p') (.var 'q')),
      name ∈ ['r', 'q', 'p'] := by simp [listed]
  obtain ⟨table, ownTable, tabulated, ownTabulated, rows⟩ := tables _ complete distinct covered
  have member : (⟨[true, false, true], false⟩ : Row) ∈ table.rows := by
    obtain ⟨-, -, rfl⟩ := TruthTable.ofFormula_eq_ok_iff.mp tabulated
    exact mem_rows_iff.mpr ⟨[true, false, true], rfl, rfl⟩
  obtain ⟨k, own, found, values, result, -⟩ := rows _ member
  rw [listed] at values
  have ownValues : own.values = [true, false] :=
    (List.map_inj_right fun _ _ => Option.some.inj).mp values
  exact ⟨agree, alike _ _ agree, agreeFalse, holds, (alike _ _ agreeFalse).symm.trans holds,
    complete, distinct, covered, table, ownTable, tabulated, ownTabulated, member, own,
    List.mem_of_getElem? found, ownValues, result⟩

end Formula

end Sentential
