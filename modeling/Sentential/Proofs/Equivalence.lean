import Mathlib.Tactic.TFAE
import Sentential.Proofs.Names
import Sentential.Proofs.Validity

/-!
Equivalent formulas. Two complete formulas that have the same value under every assignment of their
variables have a biconditional that is a tautology, an exclusive disjunction that cannot be
satisfied, and the same table over every list that has the variables of both, and each of these
checks tells formulas that are not equivalent apart. Each formula's own table says more, as it also
lists the variables in the order of the formula.
-/
namespace Sentential

variable {e f : Formula} {names : List Char} {s : Assignment}

namespace Formula

/-- The formulas agree under all assignments that have a value for every variable of either. -/
def Equivalent (e f : Formula) : Prop :=
  ∀ s : Assignment, (∀ name ∈ e.occurrences ++ f.occurrences, s.contains name = true) →
    e.eval s = f.eval s

section Complete

variable (completeE : e.isComplete = true) (completeF : f.isComplete = true)
include completeE completeF

theorem isComplete_of_both (op : Connective) : (binary op e f).isComplete = true := by
  simp [completeE, completeF]

/-- A connective is evaluated to what it makes of the values of its operands. -/
theorem eval_binary_of_known (op : Connective)
    (known : ∀ name ∈ e.occurrences ++ f.occurrences, s.contains name = true) :
    (binary op e f).eval s = .ok (op.apply (e.value s.truth) (f.value s.truth)) :=
  eval_of_known (isComplete_of_both completeE completeF op) known

theorem eval_eq_iff_of_known
    (known : ∀ name ∈ e.occurrences ++ f.occurrences, s.contains name = true) :
    e.eval s = f.eval s ↔ e.value s.truth = f.value s.truth := by
  obtain ⟨knownE, knownF⟩ := List.forall_mem_append.mp known
  rw [eval_of_known completeE knownE, eval_of_known completeF knownF, Except.ok.injEq]

theorem isTautology_iff_eq_ok_true_iff :
    (binary .iff e f).isTautology = .ok true ↔ Equivalent e f := by
  have complete := isComplete_of_both completeE completeF .iff
  rw [isTautology_eq_ok_true_iff complete]
  apply forall_congr'
  intro s
  apply forall_congr'
  intro known
  rw [eval_binary_of_known completeE completeF .iff known,
    eval_eq_iff_of_known completeE completeF known]
  simp [Connective.apply]

theorem isSatisfiable_xor_eq_ok_false_iff :
    (binary .xor e f).isSatisfiable = .ok false ↔ Equivalent e f := by
  have complete := isComplete_of_both completeE completeF .xor
  rw [isSatisfiable_eq_ok_false_iff complete]
  apply forall_congr'
  intro s
  constructor
  · intro fails known
    apply (eval_eq_iff_of_known completeE completeF known).mpr
    by_contra different
    apply fails
    rw [eval_binary_of_known completeE completeF .xor known]
    simp [Connective.apply, different]
  · intro agree holds
    obtain ⟨_, known, differ⟩ := eval_eq_ok_iff.mp holds
    have same := (eval_eq_iff_of_known completeE completeF known).mp (agree known)
    simp [value, Connective.apply, same] at differ

section Covered

variable (covered : ∀ name ∈ e.occurrences ++ f.occurrences, name ∈ names)
include covered

theorem rows_eq_iff : e.rows names = f.rows names ↔ Equivalent e f := by
  obtain ⟨coveredE, coveredF⟩ := List.forall_mem_append.mp covered
  rw [rows, rows, List.map_inj_left]
  constructor
  · intro same s known
    have width : (names.map s.truth).length = names.length := List.length_map _
    have results : (e.row names (names.map s.truth)).result =
        (f.row names (names.map s.truth)).result :=
      congrArg Row.result (same _ (Numeral.mem_all_iff.mpr width))
    rw [result_row coveredE, result_row coveredF] at results
    exact (eval_eq_iff_of_known completeE completeF known).mpr results
  · intro agree digits member
    have width := Numeral.mem_all_iff.mp member
    have known := (Assignment.known_zip_iff width).mpr covered
    have results := (eval_eq_iff_of_known completeE completeF known).mp (agree _ known)
    rw [row, row, results]

theorem ofFormula_eq_iff :
    TruthTable.ofFormula e names = TruthTable.ofFormula f names ↔ Equivalent e f := by
  obtain ⟨coveredE, coveredF⟩ := List.forall_mem_append.mp covered
  rw [TruthTable.ofFormula_eq_ok completeE coveredE, TruthTable.ofFormula_eq_ok completeF coveredF,
    ← rows_eq_iff completeE completeF covered]
  simp

end Covered

theorem truthTable_eq_iff : e.truthTable = f.truthTable ↔ e.names = f.names ∧ Equivalent e f := by
  rw [truthTable_of_complete completeE, truthTable_of_complete completeF, Except.ok.injEq,
    TruthTable.mk.injEq]
  apply and_congr_right
  intro listed
  have covered : ∀ name ∈ e.occurrences ++ f.occurrences, name ∈ e.names :=
    List.forall_mem_append.mpr ⟨names_cover e, listed ▸ names_cover f⟩
  rw [← listed]
  exact rows_eq_iff completeE completeF covered

/-- All ways to find out whether two complete formulas are equivalent agree: to compare their values
under all assignments, to put them under a biconditional or an exclusive disjunction, or to compare
their tables over a list of distinct variables that has those of both, whichever list it is. Their
own tables are the same just where they also list the same variables in the same order. -/
theorem equivalence_checks_agree :
    List.TFAE [
      Equivalent e f,
      (binary .iff e f).isTautology = .ok true,
      (binary .xor e f).isSatisfiable = .ok false,
      ∃ names : List Char, names.Nodup ∧
        (∀ name ∈ e.occurrences ++ f.occurrences, name ∈ names) ∧
        TruthTable.ofFormula e names = TruthTable.ofFormula f names,
      ∀ names : List Char, names.Nodup →
        (∀ name ∈ e.occurrences ++ f.occurrences, name ∈ names) →
        TruthTable.ofFormula e names = TruthTable.ofFormula f names] ∧
    (e.truthTable = f.truthTable ↔ e.names = f.names ∧ Equivalent e f) := by
  refine ⟨?_, truthTable_eq_iff completeE completeF⟩
  tfae_have 2 ↔ 1 := isTautology_iff_eq_ok_true_iff completeE completeF
  tfae_have 3 ↔ 1 := isSatisfiable_xor_eq_ok_false_iff completeE completeF
  tfae_have 1 → 5 := by
    intro agree names _ covered
    exact (ofFormula_eq_iff completeE completeF covered).mpr agree
  tfae_have 5 → 4 := by
    intro same
    have covered : ∀ name ∈ e.occurrences ++ f.occurrences, name ∈ (binary .iff e f).names := by
      intro name occurs
      apply mem_names_iff.mpr
      exact occurs
    have distinct := nodup_names (binary .iff e f)
    exact ⟨_, distinct, covered, same _ distinct covered⟩
  tfae_have 4 → 1 := by
    rintro ⟨names, _, covered, same⟩
    exact (ofFormula_eq_iff completeE completeF covered).mp same
  tfae_finish

end Complete

/-- Formulas that are evaluated alike, be it to a value or to a fault, have the same table over any
list of variables, or the same fault in place of one. -/
theorem ofFormula_congr (same : ∀ s, e.eval s = f.eval s) (names : List Char) :
    TruthTable.ofFormula e names = TruthTable.ofFormula f names := by
  cases tabulated : TruthTable.ofFormula e names with
  | error fault =>
    have failed := TruthTable.ofFormula_eq_error_iff.mp tabulated
    exact (TruthTable.ofFormula_eq_error ((same _).symm.trans failed)).symm
  | ok table =>
    obtain ⟨completeE, coveredE, rfl⟩ := TruthTable.ofFormula_eq_ok_iff.mp tabulated
    have first := eval_zip completeE coveredE (Numeral.length_zero names.length)
    obtain ⟨completeF, coveredF⟩ := TruthTable.complete_of_first_row ((same _).symm.trans first)
    rw [← tabulated, ofFormula_eq_iff completeE completeF
      (List.forall_mem_append.mpr ⟨coveredE, coveredF⟩)]
    exact fun s _ => same s

/-- An implication and its contraposition, which list their variables in opposite orders. -/
theorem contraposition_found_by_each_check :
    isComplete (.binary .implies (.var 'p') (.var 'q')) = true ∧
    isComplete (.binary .implies (.not (.var 'q')) (.not (.var 'p'))) = true ∧
    isTautology (.binary .iff (.binary .implies (.var 'p') (.var 'q'))
      (.binary .implies (.not (.var 'q')) (.not (.var 'p')))) = .ok true ∧
    isSatisfiable (.binary .xor (.binary .implies (.var 'p') (.var 'q'))
      (.binary .implies (.not (.var 'q')) (.not (.var 'p')))) = .ok false ∧
    TruthTable.ofFormula (.binary .implies (.var 'p') (.var 'q')) ['r', 'q', 'p'] =
      TruthTable.ofFormula (.binary .implies (.not (.var 'q')) (.not (.var 'p'))) ['r', 'q', 'p'] ∧
    truthTable (.binary .implies (.var 'p') (.var 'q')) ≠
      truthTable (.binary .implies (.not (.var 'q')) (.not (.var 'p'))) := by
  have completeE : isComplete (.binary .implies (.var 'p') (.var 'q')) = true := by simp
  have completeF : isComplete (.binary .implies (.not (.var 'q')) (.not (.var 'p'))) = true := by
    simp
  have equivalent : Equivalent (.binary .implies (.var 'p') (.var 'q'))
      (.binary .implies (.not (.var 'q')) (.not (.var 'p'))) := by
    intro s known
    apply (eval_eq_iff_of_known completeE completeF known).mpr
    cases p : s.truth 'p' <;> cases q : s.truth 'q' <;> simp [value, Connective.apply, p, q]
  obtain ⟨checks, tables⟩ := equivalence_checks_agree completeE completeF
  have everyList := (checks.out 0 4).mp equivalent
  refine ⟨completeE, completeF, (checks.out 0 1).mp equivalent, (checks.out 0 2).mp equivalent,
    everyList ['r', 'q', 'p'] (by decide) (by simp [occurrences]), ?_⟩
  intro same
  have listed := (tables.mp same).1
  simp [names, collect] at listed

end Formula

end Sentential
