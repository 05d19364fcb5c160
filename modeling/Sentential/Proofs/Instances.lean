import Sentential.Formula.Substitution
import Sentential.Proofs.Validity

/-!
Instances of a formula, with another formula for one of its variables. To evaluate an instance is to
evaluate the formula with the other one's value for the variable, even where that other formula has
the same variable in it. So an instance of a tautology is a tautology, and an instance of a formula
that cannot be satisfied cannot be satisfied, though their tables need not list the same variables.
-/
namespace Sentential

variable {e f : Formula} {s : Assignment} {name other : Char} {value : Bool}

namespace Assignment

theorem contains_insert (s : Assignment) (name : Char) (value : Bool) (other : Char) :
    (s.insert name value).contains other = (other == name || s.contains other) := by
  rw [contains, get?_insert, contains]
  by_cases same : other = name <;> simp [same]

theorem truth_insert (s : Assignment) (name : Char) (value : Bool) (other : Char) :
    (s.insert name value).truth other = if other = name then value else s.truth other := by
  rw [truth, get?_insert, truth]
  by_cases same : other = name <;> simp [same]

end Assignment

namespace Formula

theorem isMissing_subst (present : f.isMissing = false) (e : Formula) :
    (subst name f e).isMissing = e.isMissing := by
  cases e with
  | var other =>
    rw [subst]
    split
    next => exact present
    next => rfl
  | missing | not | binary => rfl

theorem isComplete_subst (completeF : f.isComplete = true) (e : Formula) :
    (subst name f e).isComplete = e.isComplete := by
  induction e with
  | missing => rfl
  | var other =>
    rw [subst, isComplete_var]
    split
    next => exact completeF
    next => exact isComplete_var other
  | not operand ih => rw [subst, isComplete_not, isComplete_not, ih]
  | binary op left right ihl ihr => rw [subst, isComplete_binary, isComplete_binary, ihl, ihr]

theorem occurrences_subst (name : Char) (f e : Formula) : (subst name f e).occurrences =
    e.occurrences.flatMap fun other => if other = name then f.occurrences else [other] := by
  induction e with
  | missing => rfl
  | var other =>
    rw [subst, occurrences, List.flatMap_singleton]
    split <;> rfl
  | not operand ih => exact ih
  | binary op left right ihl ihr =>
    rw [subst, occurrences, occurrences, ihl, ihr, List.flatMap_append]

theorem subst_of_not_mem (absent : name ∉ e.occurrences) : subst name f e = e := by
  induction e with
  | missing => rfl
  | var other =>
    have differs : other ≠ name := fun same => absent (by simp [occurrences, same])
    rw [subst, if_neg differs]
  | not operand ih => rw [subst, ih absent]
  | binary op left right ihl ihr =>
    obtain ⟨absentLeft, absentRight⟩ := not_or.mp (mt List.mem_append.mpr absent)
    rw [subst, ihl absentLeft, ihr absentRight]

theorem value_subst (name : Char) (f e : Formula) (truth : Char → Bool) :
    (subst name f e).value truth =
      e.value fun other => if other = name then f.value truth else truth other := by
  induction e with
  | missing => rfl
  | var other =>
    rw [subst, Formula.value]
    split <;> rfl
  | not operand ih => rw [subst, Formula.value, Formula.value, ih]
  | binary op left right ihl ihr => rw [subst, Formula.value, Formula.value, ihl, ihr]

/-- A formula that has a value has no faults to put for a variable. -/
theorem faults_subst (present : f.isMissing = false) (faultless : f.faults s = []) (value : Bool)
    (e : Formula) : (subst name f e).faults s = e.faults (s.insert name value) := by
  induction e with
  | missing => rfl
  | var other =>
    rw [subst, faults, Assignment.contains_insert]
    by_cases same : other = name
    · simp [same, faultless]
    · simp [same, faults]
  | not operand ih => rw [subst, faults, faults, isMissing_subst present, ih]
  | binary op left right ihl ihr =>
    rw [subst, faults, faults, isMissing_subst present, isMissing_subst present, ihl, ihr]

/-- To evaluate an instance is to evaluate the formula with the value that was put in. -/
theorem eval_subst (evaluated : f.eval s = .ok value) (e : Formula) :
    (subst name f e).eval s = e.eval (s.insert name value) := by
  obtain ⟨complete, known, same⟩ := eval_eq_ok_iff.mp evaluated
  have present := isMissing_eq_false complete
  have faultless := (faults_eq_nil_iff (ne_missing present)).mpr ⟨complete, known⟩
  apply eval_eq_eval (isMissing_subst present e)
  · rw [faults_subst present faultless value]
  · rw [value_subst, same]
    simp only [← Assignment.truth_insert]

/-- An instance under an assignment of all of its variables is the formula under an assignment of
all of its own. -/
theorem exists_eval_subst (completeF : f.isComplete = true)
    (known : ∀ other ∈ (subst name f e).occurrences, s.contains other = true) :
    ∃ t : Assignment, (∀ other ∈ e.occurrences, t.contains other = true) ∧
      (subst name f e).eval s = e.eval t := by
  by_cases occurs : name ∈ e.occurrences
  · simp only [occurrences_subst, List.mem_flatMap] at known
    have knownF : ∀ other ∈ f.occurrences, s.contains other = true :=
      fun other member => known other ⟨name, occurs, by simpa using member⟩
    refine ⟨_, fun other member => ?_, eval_subst (eval_of_known completeF knownF) e⟩
    rw [Assignment.contains_insert]
    by_cases same : other = name
    · simp [same]
    · simp [known other ⟨other, member, by simp [same]⟩]
  · rw [subst_of_not_mem occurs] at known ⊢
    exact ⟨s, known, rfl⟩

theorem isTautology_subst (complete : e.isComplete = true) (completeF : f.isComplete = true)
    (tautology : e.isTautology = .ok true) : (subst name f e).isTautology = .ok true := by
  have holds := (isTautology_eq_ok_true_iff complete).mp tautology
  apply (isTautology_eq_ok_true_iff ((isComplete_subst completeF e).trans complete)).mpr
  intro s known
  obtain ⟨t, knownE, same⟩ := exists_eval_subst completeF known
  exact same.trans (holds t knownE)

theorem isSatisfiable_subst (complete : e.isComplete = true) (completeF : f.isComplete = true)
    (unsatisfiable : e.isSatisfiable = .ok false) :
    (subst name f e).isSatisfiable = .ok false := by
  have fails := (isSatisfiable_eq_ok_false_iff complete).mp unsatisfiable
  apply (isSatisfiable_eq_ok_false_iff ((isComplete_subst completeF e).trans complete)).mpr
  intro s holds
  obtain ⟨-, known, -⟩ := eval_eq_ok_iff.mp holds
  obtain ⟨t, -, same⟩ := exists_eval_subst completeF known
  exact fails t (same.symm.trans holds)

/-- To put a formula for a variable is to give the variable the formula's value: every formula ends
in the same value or the same fault either way. So a tautology stays one and a formula that cannot
be satisfied stays so, whatever complete formula is put for a variable, with whatever variables. -/
theorem substitution_is_assignment (name : Char) (f e : Formula) :
    (∀ s value, f.eval s = .ok value →
      (subst name f e).eval s = e.eval (s.insert name value)) ∧
    (e.isComplete = true → f.isComplete = true →
      (e.isTautology = .ok true → (subst name f e).isTautology = .ok true) ∧
      (e.isSatisfiable = .ok false → (subst name f e).isSatisfiable = .ok false)) := by
  refine ⟨fun s value evaluated => eval_subst evaluated e, fun complete completeF => ⟨?_, ?_⟩⟩
  · exact isTautology_subst complete completeF
  · exact isSatisfiable_subst complete completeF

/-- A formula that has the variable for which it is put, and one more. -/
theorem variable_put_within_itself :
    eval (.ofList [('p', true), ('q', false)]) (.binary .and (.var 'p') (.var 'q')) = .ok false ∧
    eval (.ofList [('p', true), ('q', false)])
      (subst 'p' (.binary .and (.var 'p') (.var 'q')) (.binary .implies (.var 'q') (.var 'p'))) =
      eval ((Assignment.ofList [('p', true), ('q', false)]).insert 'p' false)
        (.binary .implies (.var 'q') (.var 'p')) ∧
    isTautology (.binary .or (.var 'p') (.not (.var 'p'))) = .ok true ∧
    isTautology (.binary .or (.binary .and (.var 'p') (.var 'q'))
      (.not (.binary .and (.var 'p') (.var 'q')))) = .ok true ∧
    isSatisfiable (.binary .and (.var 'p') (.not (.var 'p'))) = .ok false ∧
    isSatisfiable (.binary .and (.binary .and (.var 'p') (.var 'q'))
      (.not (.binary .and (.var 'p') (.var 'q')))) = .ok false := by
  have evaluated : eval (.ofList [('p', true), ('q', false)])
      (.binary .and (.var 'p') (.var 'q')) = .ok false := eval_of_faultless (by simp) rfl
  have complete : isComplete (.binary .and (.var 'p') (.var 'q')) = true := by simp
  have completeOr : isComplete (.binary .or (.var 'p') (.not (.var 'p'))) = true := by simp
  have completeAnd : isComplete (.binary .and (.var 'p') (.not (.var 'p'))) = true := by simp
  have tautology : isTautology (.binary .or (.var 'p') (.not (.var 'p'))) = .ok true := by
    apply (isTautology_eq_ok_true_iff completeOr).mpr
    intro s known
    refine eval_eq_ok_iff.mpr ⟨completeOr, known, ?_⟩
    simp [Formula.value, Connective.apply]
  have unsatisfiable : isSatisfiable (.binary .and (.var 'p') (.not (.var 'p'))) = .ok false := by
    apply (isSatisfiable_eq_ok_false_iff completeAnd).mpr
    intro s holds
    obtain ⟨-, -, value⟩ := eval_eq_ok_iff.mp holds
    simp [Formula.value, Connective.apply] at value
  obtain ⟨assigned, -⟩ := substitution_is_assignment 'p' (.binary .and (.var 'p') (.var 'q'))
    (.binary .implies (.var 'q') (.var 'p'))
  obtain ⟨-, tautologies⟩ := substitution_is_assignment 'p' (.binary .and (.var 'p') (.var 'q'))
    (.binary .or (.var 'p') (.not (.var 'p')))
  obtain ⟨-, contradictions⟩ := substitution_is_assignment 'p'
    (.binary .and (.var 'p') (.var 'q')) (.binary .and (.var 'p') (.not (.var 'p')))
  exact ⟨evaluated, assigned _ _ evaluated, tautology,
    (tautologies completeOr complete).1 tautology, unsatisfiable,
    (contradictions completeAnd complete).2 unsatisfiable⟩

end Formula

end Sentential
