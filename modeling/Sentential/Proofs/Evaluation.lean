import Sentential.Formula.Evaluation
import Sentential.Formula.Semantics

/-!
The machine that evaluates a formula against the recursive meaning of the formula. Whatever else is
still to be done and whatever values are at hand, evaluating a formula stops with its first fault,
or it leaves one more value at hand, which is the value of the formula. A complete formula has a
value wherever its variables have, or else the first of them without one is at fault. An incomplete
formula has no value anywhere, and no variables but its own matter.
-/
namespace Sentential

variable {s t : Assignment} {count : Nat} {e f operand left right : Formula}

theorem Formula.ne_missing (present : e.isMissing = false) : e ≠ .missing := by
  rintro rfl
  contradiction

theorem Formula.eq_missing (absent : e.isMissing = true) : e = .missing := by
  cases e with
  | missing => rfl
  | var | not | binary => contradiction

theorem Formula.isMissing_of_ne (present : e ≠ .missing) : e.isMissing = false :=
  Bool.eq_false_iff.mpr fun absent => present (eq_missing absent)

namespace Agenda

theorem run_not (rest : Agenda (count + 1)) (values : Values count) (value : Bool) :
    (Agenda.not rest).run s (values.push value) = rest.run s (values.push !value) := by
  rw [run]

theorem run_binary (op : Connective) (rest : Agenda (count + 1)) (values : Values count)
    (l r : Bool) : (Agenda.binary op rest).run s ((values.push l).push r) =
      rest.run s (values.push (op.apply l r)) := by
  rw [run]

theorem run_evaluate (present : e ≠ .missing) (rest : Agenda (count + 1))
    (values : Values count) : (Agenda.evaluate e rest).run s values =
      match (e.faults s).head? with
      | some fault => .error fault
      | none => rest.run s (values.push (e.value s.truth)) := by
  induction e generalizing count with
  | missing => contradiction
  | var name =>
    rw [run, Formula.faults, Formula.value, Assignment.truth, Assignment.contains]
    cases s.get? name with
    | none => rfl
    | some value => cases value <;> rfl
  | not operand ih =>
    rw [run, Formula.faults, Formula.value]
    cases missing : operand.isMissing with
    | true => rfl
    | false =>
      simp only [Bool.false_eq_true, ↓reduceIte, List.nil_append]
      rw [ih (Formula.ne_missing missing)]
      cases (operand.faults s).head? with
      | some fault => rfl
      | none => exact run_not rest values _
  | binary op left right ihl ihr =>
    rw [run, Formula.faults, Formula.value]
    cases missing : left.isMissing || right.isMissing with
    | true => rfl
    | false =>
      simp only [Bool.false_eq_true, ↓reduceIte, List.nil_append, List.head?_append]
      obtain ⟨presentLeft, presentRight⟩ := Bool.or_eq_false_iff.mp missing
      rw [ihl (Formula.ne_missing presentLeft)]
      cases (left.faults s).head? with
      | some fault => rfl
      | none =>
        simp only [Option.none_or]
        rw [ihr (Formula.ne_missing presentRight)]
        cases (right.faults s).head? with
        | some fault => rfl
        | none => exact run_binary op rest values _ _

end Agenda

/-- Evaluation gives the first fault in reading order, whatever the values, and the value of the
formula where there is no fault. -/
theorem Formula.eval_eq_first_fault_or_value (present : e ≠ .missing) (s : Assignment) :
    e.eval s =
      match (e.faults s).head? with
      | some fault => .error fault
      | none => .ok (e.value s.truth) := by
  rw [eval, Agenda.run_evaluate present]
  cases (e.faults s).head? with
  | some fault => rfl
  | none => rw [Agenda.run]

theorem Formula.eval_unknown_before_gap :
    Formula.binary .and (.var 'p') (.not .missing) ≠ .missing ∧
      eval .empty (.binary .and (.var 'p') (.not .missing)) = .error (.unknownVariable 'p') := by
  have present : Formula.binary .and (.var 'p') (.not .missing) ≠ .missing := by simp
  exact ⟨present, eval_eq_first_fault_or_value present .empty⟩

namespace Formula

theorem faults_eq_nil_iff (present : e ≠ .missing) : e.faults s = [] ↔
    e.isComplete = true ∧ ∀ name ∈ e.occurrences, s.contains name = true := by
  induction e with
  | missing => contradiction
  | var name => simp [faults, occurrences]
  | not operand ih =>
    cases missing : operand.isMissing with
    | true => simp [faults, missing, isComplete_of_isMissing missing]
    | false => simp [faults, missing, ih (ne_missing missing), occurrences]
  | binary op left right ihl ihr =>
    cases missingLeft : left.isMissing with
    | true => simp [faults, missingLeft, isComplete_of_isMissing missingLeft]
    | false =>
      cases missingRight : right.isMissing with
      | true => simp [faults, missingRight, isComplete_of_isMissing missingRight]
      | false =>
        simp only [faults, missingLeft, missingRight, ihl (ne_missing missingLeft),
          ihr (ne_missing missingRight), occurrences, isComplete_binary, List.append_eq_nil_iff,
          List.mem_append, or_imp, forall_and]
        grind

theorem invalid_of_mem_faults {fault : Error}
    (covered : ∀ name ∈ e.occurrences, s.contains name = true) (member : fault ∈ e.faults s) :
    fault = .invalidFormula := by
  induction e with
  | missing => simp [faults] at member
  | var name => simp [faults, covered name (by simp [occurrences])] at member
  | not operand ih =>
    rcases List.mem_append.mp member with gap | inside
    · split at gap <;> simp_all
    · exact ih covered inside
  | binary op left right ihl ihr =>
    simp only [occurrences, List.mem_append, or_imp, forall_and] at covered
    simp only [faults, List.mem_append] at member
    rcases member with (gap | inside) | inside
    · split at gap <;> simp_all
    · exact ihl covered.1 inside
    · exact ihr covered.2 inside

theorem eval_missing (s : Assignment) : eval s .missing = .error .invalidFormula := by
  rw [eval, Agenda.run]

theorem eval_of_faultless (present : e ≠ .missing) (faultless : e.faults s = []) :
    e.eval s = .ok (e.value s.truth) := by
  rw [eval, Agenda.run_evaluate present, faultless, List.head?_nil, Agenda.run]

theorem eval_of_faulty {fault : Error} {others : List Error} (present : e ≠ .missing)
    (faulty : e.faults s = fault :: others) : e.eval s = .error fault := by
  rw [eval, Agenda.run_evaluate present, faulty, List.head?_cons]

/-- The first fault and the value are all that an evaluation goes by, whatever formulas and
assignments they come from. -/
theorem eval_eq_eval (missing : e.isMissing = f.isMissing)
    (faults : (e.faults s).head? = (f.faults t).head?)
    (value : e.value s.truth = f.value t.truth) : e.eval s = f.eval t := by
  cases absent : f.isMissing with
  | true => rw [eq_missing absent, eq_missing (missing.trans absent), eval_missing, eval_missing]
  | false =>
    rw [eval, eval, Agenda.run_evaluate (ne_missing absent),
      Agenda.run_evaluate (ne_missing (missing.trans absent)), faults, value]
    cases (f.faults t).head? with
    | some fault => rfl
    | none => rw [Agenda.run, Agenda.run]

theorem eval_eq_error_iff {fault : Error} (present : e ≠ .missing) :
    e.eval s = .error fault ↔ (e.faults s).head? = some fault := by
  cases faulty : e.faults s with
  | nil => simp [eval_of_faultless present faulty]
  | cons first others => simp [eval_of_faulty present faulty]

theorem eval_eq_ok_iff {value : Bool} : e.eval s = .ok value ↔
    e.isComplete = true ∧ (∀ name ∈ e.occurrences, s.contains name = true) ∧
      e.value s.truth = value := by
  by_cases absent : e = .missing
  · simp [absent, eval_missing]
  cases faulty : e.faults s with
  | nil =>
    obtain ⟨complete, covered⟩ := (faults_eq_nil_iff absent).mp faulty
    rw [eval_of_faultless absent faulty, and_iff_right complete, and_iff_right covered,
      Except.ok.injEq]
  | cons fault others =>
    rw [eval_of_faulty absent faulty]
    constructor
    · intro found
      contradiction
    · rintro ⟨complete, covered, -⟩
      have faultless := (faults_eq_nil_iff absent).mpr ⟨complete, covered⟩
      simp [faulty] at faultless

theorem eval_of_incomplete (incomplete : e.isComplete = false)
    (covered : ∀ name ∈ e.occurrences, s.contains name = true) :
    e.eval s = .error .invalidFormula := by
  by_cases absent : e = .missing
  · rw [absent, eval_missing]
  cases faulty : e.faults s with
  | nil =>
    have complete := ((faults_eq_nil_iff absent).mp faulty).1
    simp [incomplete] at complete
  | cons fault others =>
    have member : fault ∈ e.faults s := by simp [faulty]
    rw [eval_of_faulty absent faulty, invalid_of_mem_faults covered member]

/-- Faults depend on which variables have a value, and not on the values. -/
theorem faults_congr (agree : ∀ name ∈ e.occurrences, s.contains name = t.contains name) :
    e.faults s = e.faults t := by
  induction e with
  | missing => rfl
  | var name =>
    have same := agree name (List.mem_singleton_self name)
    simp only [faults, same]
  | not operand ih => simp only [faults, ih agree]
  | binary op left right ihl ihr =>
    obtain ⟨agreeLeft, agreeRight⟩ := List.forall_mem_append.mp agree
    simp only [faults, ihl agreeLeft, ihr agreeRight]

/-- What fails under one assignment fails in the same way under all that assign the same variables,
since nothing is passed over on account of a value. -/
theorem eval_eq_error_congr {fault : Error}
    (agree : ∀ name ∈ e.occurrences, s.contains name = t.contains name)
    (failed : e.eval s = .error fault) : e.eval t = .error fault := by
  by_cases absent : e = .missing
  · subst absent
    simpa only [eval_missing] using failed
  · have first := (eval_eq_error_iff absent).mp failed
    exact (eval_eq_error_iff absent).mpr (faults_congr agree ▸ first)

theorem value_congr {truth other : Char → Bool}
    (agree : ∀ name ∈ e.occurrences, truth name = other name) : e.value truth = e.value other := by
  induction e with
  | missing => rfl
  | var name => exact agree name (by simp [occurrences])
  | not operand ih => rw [value, value, ih agree]
  | binary op left right ihl ihr =>
    simp only [occurrences, List.mem_append, or_imp, forall_and] at agree
    rw [value, value, ihl agree.1, ihr agree.2]

theorem isMissing_eq_false (complete : e.isComplete = true) : e.isMissing = false := by
  cases e with
  | missing => simp at complete
  | var | not | binary => rfl

/-- Where no operand is absent only variables are at fault, in the order in which they occur. -/
theorem faults_of_complete (complete : e.isComplete = true) (s : Assignment) :
    e.faults s = (e.occurrences.filter (!s.contains ·)).map .unknownVariable := by
  induction e with
  | missing => simp at complete
  | var name =>
    cases known : s.contains name with
    | true => simp [faults, occurrences, known]
    | false => simp [faults, occurrences, known]
  | not operand ih =>
    rw [isComplete_not] at complete
    simp [faults, isMissing_eq_false complete, ih complete, occurrences]
  | binary op left right ihl ihr =>
    rw [isComplete_binary, Bool.and_eq_true] at complete
    obtain ⟨completeLeft, completeRight⟩ := complete
    simp [faults, isMissing_eq_false completeLeft, isMissing_eq_false completeRight,
      ihl completeLeft, ihr completeRight, occurrences]

section Complete

variable (complete : e.isComplete = true)
include complete

theorem eval_of_known (known : ∀ name ∈ e.occurrences, s.contains name = true) :
    e.eval s = .ok (e.value s.truth) :=
  eval_eq_ok_iff.mpr ⟨complete, known, rfl⟩

theorem eval_of_unknown {name : Char} (first : e.occurrences.find? (!s.contains ·) = some name) :
    e.eval s = .error (.unknownVariable name) := by
  have present : e ≠ .missing := ne_missing (isMissing_eq_false complete)
  have faults := faults_of_complete complete s
  rw [← List.head?_filter] at first
  obtain ⟨others, unknown⟩ := List.head?_eq_some_iff.mp first
  rw [unknown, List.map_cons] at faults
  exact eval_of_faulty present faults

end Complete

end Formula

end Sentential
