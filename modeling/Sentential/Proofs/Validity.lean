import Sentential.Proofs.TruthTable

/-!
Tautologies and satisfiable formulas. The table of a complete formula has a row for the values that
any assignment gives to its variables, so what holds of all rows holds of all assignments, and what
holds under some assignment holds of some row.
-/
namespace Sentential.Formula

variable {e : Formula} {names : List Char} {row : Row}

theorem mem_rows_iff : row ∈ e.rows names ↔
    ∃ digits : Numeral, digits.length = names.length ∧ e.row names digits = row := by
  simp only [rows, List.mem_map, Numeral.mem_all_iff]

theorem row_mem_rows (e : Formula) (names : List Char) (s : Assignment) :
    e.row names (names.map s.truth) ∈ e.rows names :=
  mem_rows_iff.mpr ⟨_, List.length_map _, rfl⟩

/-- A formula lists all of its variables. -/
theorem names_cover (e : Formula) : ∀ name ∈ e.occurrences, name ∈ e.names :=
  fun _ => mem_names_iff.mpr

theorem known_names_iff {s : Assignment} : (∀ name ∈ e.names, s.contains name = true) ↔
    ∀ name ∈ e.occurrences, s.contains name = true := by
  simp only [mem_names_iff]

theorem truthTable_of_incomplete (incomplete : e.isComplete = false) :
    e.truthTable = .error .invalidFormula := by
  apply TruthTable.ofFormula_eq_error
  apply eval_of_incomplete incomplete
  exact (Assignment.known_zip_iff (Numeral.length_zero _)).mpr (names_cover e)

section Complete

variable (complete : e.isComplete = true)
include complete

theorem truthTable_of_complete : e.truthTable = .ok ⟨e.names, e.rows e.names⟩ :=
  TruthTable.ofFormula_eq_ok complete (names_cover e)

theorem isTautology_of_complete : e.isTautology = .ok ((e.rows e.names).all (·.result)) := by
  rw [isTautology, truthTable_of_complete complete]
  rfl

theorem isSatisfiable_of_complete :
    e.isSatisfiable = .ok ((e.rows e.names).any (·.result)) := by
  rw [isSatisfiable, truthTable_of_complete complete]
  rfl

theorem all_rows_iff : (e.rows e.names).all (·.result) = true ↔
    ∀ s : Assignment, (∀ name ∈ e.occurrences, s.contains name = true) → e.eval s = .ok true := by
  rw [List.all_eq_true]
  constructor
  · intro holds s known
    have inRow := holds _ (row_mem_rows e e.names s)
    rw [eval_eq_result complete (names_cover e) (known_names_iff.mpr known), inRow]
  · intro valid row member
    obtain ⟨digits, width, rfl⟩ := mem_rows_iff.mp member
    have result := eval_zip complete (names_cover e) width
    have known := (Assignment.known_zip_iff width).mpr (names_cover e)
    exact Except.ok.inj (result.symm.trans (valid _ known))

theorem any_rows_iff :
    (e.rows e.names).any (·.result) = true ↔ ∃ s, e.eval s = .ok true := by
  rw [List.any_eq_true]
  constructor
  · rintro ⟨row, member, holds⟩
    obtain ⟨digits, width, rfl⟩ := mem_rows_iff.mp member
    refine ⟨_, (eval_zip complete (names_cover e) width).trans ?_⟩
    rw [holds]
  · rintro ⟨s, holds⟩
    obtain ⟨_, known, _⟩ := eval_eq_ok_iff.mp holds
    refine ⟨_, row_mem_rows e e.names s, ?_⟩
    have result := eval_eq_result complete (names_cover e) (known_names_iff.mpr known)
    exact Except.ok.inj (result.symm.trans holds)

theorem isTautology_eq_ok_true_iff : e.isTautology = .ok true ↔
    ∀ s : Assignment, (∀ name ∈ e.occurrences, s.contains name = true) → e.eval s = .ok true := by
  rw [isTautology_of_complete complete, Except.ok.injEq, all_rows_iff complete]

theorem isSatisfiable_eq_ok_false_iff :
    e.isSatisfiable = .ok false ↔ ∀ s, e.eval s ≠ .ok true := by
  rw [isSatisfiable_of_complete complete, Except.ok.injEq, ← Bool.not_eq_true,
    any_rows_iff complete, not_exists]

end Complete

/-- Each row of a negation has the other value. -/
theorem any_rows_not (e : Formula) (names : List Char) :
    ((not e).rows names).any (·.result) = !(e.rows names).all (·.result) := by
  rw [rows, rows, List.any_map, List.all_map, List.not_all_eq_any_not]
  rfl

/-- A complete formula is found a tautology where it holds under every assignment of its variables,
whatever else that assigns, and satisfiable where it holds under some assignment, and it is the one
just where its negation is not the other. For an incomplete formula neither is decided. -/
theorem tables_decide_validity (e : Formula) :
    (e.isComplete = true →
      (∃ b, e.isTautology = .ok b) ∧ (∃ b, e.isSatisfiable = .ok b) ∧
      (e.isTautology = .ok true ↔
        ∀ s : Assignment, (∀ name ∈ e.occurrences, s.contains name = true) →
          e.eval s = .ok true) ∧
      (e.isSatisfiable = .ok true ↔ ∃ s, e.eval s = .ok true) ∧
      ∀ b, e.isTautology = .ok b ↔ (not e).isSatisfiable = .ok !b) ∧
    (e.isComplete = false →
      e.isTautology = .error .invalidFormula ∧ e.isSatisfiable = .error .invalidFormula) := by
  constructor
  · intro complete
    have tautology := isTautology_of_complete complete
    have satisfiable := isSatisfiable_of_complete complete
    have negation := isSatisfiable_of_complete ((isComplete_not e).trans complete)
    rw [names_not, any_rows_not] at negation
    refine ⟨⟨_, tautology⟩, ⟨_, satisfiable⟩, ?_, ?_, ?_⟩
    · rw [tautology, Except.ok.injEq, all_rows_iff complete]
    · rw [satisfiable, Except.ok.injEq, any_rows_iff complete]
    · intro b
      rw [tautology, negation, Except.ok.injEq, Except.ok.injEq, Bool.not_inj_iff]
  · intro incomplete
    rw [isTautology, isSatisfiable, truthTable_of_incomplete incomplete]
    exact ⟨rfl, rfl⟩

theorem excluded_middle_decided :
    isComplete (.binary .or (.var 'p') (.not (.var 'p'))) = true ∧
    isTautology (.binary .or (.var 'p') (.not (.var 'p'))) = .ok true ∧
    isComplete (.binary .or (.var 'p') (.not .missing)) = false ∧
    isTautology (.binary .or (.var 'p') (.not .missing)) = .error .invalidFormula := by
  have complete : isComplete (.binary .or (.var 'p') (.not (.var 'p'))) = true := by simp
  have incomplete : isComplete (.binary .or (.var 'p') (.not .missing)) = false := by simp
  obtain ⟨_, _, valid, _⟩ := (tables_decide_validity _).1 complete
  obtain ⟨undecided, _⟩ := (tables_decide_validity _).2 incomplete
  refine ⟨complete, valid.mpr ?_, incomplete, undecided⟩
  intro s known
  refine eval_eq_ok_iff.mpr ⟨complete, known, ?_⟩
  simp [value, Connective.apply]

end Sentential.Formula
