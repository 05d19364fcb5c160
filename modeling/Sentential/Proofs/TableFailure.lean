import Sentential.Proofs.Validity

/-!
Where a truth table fails. Its rows assign the same variables, and what stops an evaluation is never
a matter of values, so the first row decides: where it has a result all have one, and otherwise its
fault is the fault of every assignment of the listed variables. Over the variables of the formula
itself, only an absent operand is left to be at fault.
-/
namespace Sentential

variable {e : Formula} {names : List Char} {fault : Error}

theorem map_eq_error_iff {ε α β : Type} {x : Except ε α} {f : α → β} {fault : ε} :
    x.map f = .error fault ↔ x = .error fault := by
  cases x with
  | error other => simp only [Except.map, Except.error.injEq]
  | ok a => simp only [Except.map, reduceCtorEq]

namespace TruthTable

theorem zip_zero (names : List Char) :
    names.zip (Numeral.zero names.length) = names.map (·, false) := by
  rw [List.map_prod_left_eq_zip, List.map_const', Numeral.zero]

theorem exists_ofFormula_iff : (∃ table, ofFormula e names = .ok table) ↔
    e.isComplete = true ∧ ∀ name ∈ e.occurrences, name ∈ names := by
  constructor
  · rintro ⟨table, tabulated⟩
    obtain ⟨complete, covered, -⟩ := ofFormula_eq_ok_iff.mp tabulated
    exact ⟨complete, covered⟩
  · rintro ⟨complete, covered⟩
    exact ⟨_, ofFormula_eq_ok complete covered⟩

theorem eval_of_domain (failed : ofFormula e names = .error fault) {s : Assignment}
    (domain : ∀ name, s.contains name = true ↔ name ∈ names) : e.eval s = .error fault := by
  apply Formula.eval_eq_error_congr _ (ofFormula_eq_error_iff.mp failed)
  intro name _
  rw [Bool.eq_iff_iff, Assignment.contains_zip_iff (Numeral.length_zero _), domain]

end TruthTable

namespace Formula

theorem exists_truthTable_iff : (∃ table, e.truthTable = .ok table) ↔ e.isComplete = true :=
  TruthTable.exists_ofFormula_iff.trans (and_iff_left (names_cover e))

theorem invalid_of_truthTable (failed : e.truthTable = .error fault) : fault = .invalidFormula := by
  cases complete : e.isComplete with
  | true =>
    rw [truthTable_of_complete complete] at failed
    contradiction
  | false =>
    have invalid := truthTable_of_incomplete complete
    exact Except.error.inj (failed.symm.trans invalid)

/-- A table can be made just where the formula is complete and all of its variables are listed.
Where none can be made, the fault is that of the formula with all listed variables false, and of the
formula under every assignment of just the listed variables. Over the variables of the formula a
table can be made just where the formula is complete, the fault is a missing operand otherwise, and
the checks made from the table have no other faults than the table. -/
theorem tables_fail_at_first_row (e : Formula) :
    (∀ names,
      ((∃ table, TruthTable.ofFormula e names = .ok table) ↔
        e.isComplete = true ∧ ∀ name ∈ e.occurrences, name ∈ names) ∧
      ∀ fault, TruthTable.ofFormula e names = .error fault →
        e.eval (.ofList (names.map (·, false))) = .error fault ∧
        ∀ s : Assignment, (∀ name, s.contains name = true ↔ name ∈ names) →
          e.eval s = .error fault) ∧
    ((∃ table, e.truthTable = .ok table) ↔ e.isComplete = true) ∧
    (∀ fault, e.truthTable = .error fault → fault = .invalidFormula) ∧
    ∀ fault, (e.isTautology = .error fault ↔ e.truthTable = .error fault) ∧
      (e.isSatisfiable = .error fault ↔ e.truthTable = .error fault) := by
  refine ⟨fun names => ⟨TruthTable.exists_ofFormula_iff, fun fault failed => ⟨?_, ?_⟩⟩,
    exists_truthTable_iff, fun fault => invalid_of_truthTable,
    fun fault => ⟨map_eq_error_iff, map_eq_error_iff⟩⟩
  · exact TruthTable.zip_zero names ▸ TruthTable.ofFormula_eq_error_iff.mp failed
  · exact fun s domain => TruthTable.eval_of_domain failed domain

/-- A variable that is not listed comes before a gap, and a gap is left when all are listed. -/
theorem unlisted_variable_before_gap :
    TruthTable.ofFormula (.binary .and (.var 'q') (.not .missing)) ['p'] =
      .error (.unknownVariable 'q') ∧
    eval (.ofList [('p', true)]) (.binary .and (.var 'q') (.not .missing)) =
      .error (.unknownVariable 'q') ∧
    (¬ ∃ table, truthTable (.binary .and (.var 'q') (.not .missing)) = .ok table) ∧
    isTautology (.binary .and (.var 'q') (.not .missing)) = .error .invalidFormula := by
  have failed : TruthTable.ofFormula (.binary .and (.var 'q') (.not .missing)) ['p'] =
      .error (.unknownVariable 'q') :=
    TruthTable.ofFormula_eq_error (eval_of_faulty (by simp) rfl)
  have untabulated : truthTable (.binary .and (.var 'q') (.not .missing)) =
      .error .invalidFormula := truthTable_of_incomplete (by simp)
  have domain : ∀ name, (Assignment.ofList [('p', true)]).contains name = true ↔
      name ∈ ['p'] := by
    intro name
    simp [Assignment.contains_ofList_iff]
  obtain ⟨tables, ownTable, _, checks⟩ :=
    tables_fail_at_first_row (.binary .and (.var 'q') (.not .missing))
  exact ⟨failed, ((tables ['p']).2 _ failed).2 _ domain, ownTable.not.mpr (by simp),
    (checks _).1.mpr untabulated⟩

end Formula

end Sentential
