import Sentential.Formula.Substitution
import Sentential.Proofs.Equivalence

/-!
The laws of the connectives, for any formulas and at any depth. The two sides of a law may be put
for each other in every place, and nothing that is asked of the whole formula tells which of them
stands there: its first fault is the same, its variables are listed in the same order and its values
are the same. Operands may themselves have gaps.
-/
namespace Sentential

variable {a b l r : Formula}

namespace Formula

/-- Laws that express a connective by others, and those that move a negation inwards. -/
inductive Law (a b : Formula) : Formula → Formula → Prop
  | doubleNegation : Law a b (.not (.not a)) a
  | implies : Law a b (.binary .implies a b) (.binary .or (.not a) b)
  | impliedBy : Law a b (.binary .impliedBy a b) (.binary .or a (.not b))
  | nand : Law a b (.binary .nand a b) (.not (.binary .and a b))
  | nor : Law a b (.binary .nor a b) (.not (.binary .or a b))
  | xor : Law a b (.binary .xor a b) (.not (.binary .iff a b))
  | iff : Law a b (.binary .iff a b) (.binary .and (.binary .implies a b) (.binary .implies b a))
  | notAnd : Law a b (.not (.binary .and a b)) (.binary .or (.not a) (.not b))
  | notOr : Law a b (.not (.binary .or a b)) (.binary .and (.not a) (.not b))

/-- What two formulas have to share for one to stand in the place of the other. Later faults may
differ, since only the first one is ever reported. -/
structure Interchangeable (l r : Formula) : Prop where
  missing : l.isMissing = r.isMissing
  faults : ∀ s, (l.faults s).head? = (r.faults s).head?
  value : ∀ truth, l.value truth = r.value truth
  names : l.names = r.names

namespace Interchangeable

theorem eval_eq (same : Interchangeable l r) (s : Assignment) : l.eval s = r.eval s :=
  eval_eq_eval same.missing (same.faults s) (same.value _)

theorem not (same : Interchangeable l r) : Interchangeable (.not l) (.not r) where
  missing := rfl
  faults s := by simp only [Formula.faults, List.head?_append, same.missing, same.faults s]
  value truth := by simp only [Formula.value, same.value truth]
  names := by simp only [names_not, same.names]

theorem binary {l' r' : Formula} (op : Connective) (left : Interchangeable l r)
    (right : Interchangeable l' r') :
    Interchangeable (.binary op l l') (.binary op r r') where
  missing := rfl
  faults s := by
    simp only [Formula.faults, List.head?_append, left.missing, left.faults s, right.missing,
      right.faults s]
  value truth := by simp only [Formula.value, left.value truth, right.value truth]
  names := by simp only [names_binary, left.names, right.names]

theorem refl (e : Formula) : Interchangeable e e :=
  ⟨rfl, fun _ => rfl, fun _ => rfl, rfl⟩

/-- What may be put for each other may be so in any place. -/
theorem fill (same : Interchangeable l r) (place : Context) :
    Interchangeable (place.fill l) (place.fill r) := by
  induction place with
  | here => exact same
  | not hole ih => exact ih.not
  | left op hole operand ih => exact ih.binary op (refl operand)
  | right op operand hole ih => exact (refl operand).binary op ih

end Interchangeable

namespace Law

/-- The operands have no more names to add when they come again in the other order. -/
theorem removeAll_exchanged (names others : List Char) :
    (others ++ names.removeAll others).removeAll (names ++ others.removeAll names) = [] := by
  rw [List.eq_nil_iff_forall_not_mem]
  intro name
  simp only [mem_removeAll_iff, List.mem_append]
  tauto

theorem names_eq (law : Law a b l r) : l.names = r.names := by
  cases law with
  | iff => simp only [names_binary, removeAll_exchanged, List.append_nil]
  | _ => simp only [names_binary, names_not]

theorem value_eq (law : Law a b l r) (truth : Char → Bool) : l.value truth = r.value truth := by
  cases law with
  | doubleNegation => exact Bool.not_not _
  | implies | impliedBy | nand | nor | xor => rfl
  | iff =>
    simp only [value, Connective.apply]
    cases a.value truth <;> cases b.value truth <;> rfl
  | notAnd => exact Bool.not_and _ _
  | notOr => exact Bool.not_or _ _

/-- On either side all faults of the first operand come before those of the second. An operand that
is visited twice has what is at fault in it found the first time. -/
theorem head?_faults_eq (presentA : a.isMissing = false) (presentB : b.isMissing = false)
    (law : Law a b l r) (s : Assignment) : (l.faults s).head? = (r.faults s).head? := by
  cases law with
  | iff =>
    simp only [faults, presentA, presentB, isMissing_binary, List.head?_append]
    cases (a.faults s).head? <;> cases (b.faults s).head? <;> rfl
  | _ => simp [faults, presentA, presentB]

theorem interchangeable (presentA : a ≠ .missing) (presentB : b ≠ .missing) (law : Law a b l r) :
    Interchangeable l r := by
  have presentA := isMissing_of_ne presentA
  have presentB := isMissing_of_ne presentB
  refine ⟨?_, head?_faults_eq presentA presentB law, value_eq law, names_eq law⟩
  cases law <;> simp [presentA]

end Law

/-- The laws hold for any two formulas, with gaps or without, and in any place of a formula: put for
the other side, one side of a law changes neither what the formula is evaluated to, by value or by
fault, nor the list of its variables, nor its table. -/
theorem laws_hold_in_every_place (presentA : a ≠ .missing) (presentB : b ≠ .missing)
    (law : Law a b l r) (place : Context) :
    (∀ s, (place.fill l).eval s = (place.fill r).eval s) ∧
    (place.fill l).names = (place.fill r).names ∧
    (place.fill l).truthTable = (place.fill r).truthTable := by
  have same := (law.interchangeable presentA presentB).fill place
  refine ⟨same.eval_eq, same.names, ?_⟩
  rw [truthTable, truthTable, ← same.names]
  exact ofFormula_congr same.eval_eq _

/-- A biconditional with a gap on its right, under a negation. The two implications come upon the
gap twice, and both times after the variable that has no value. Without gaps, a law within a
disjunction that comes out true. -/
theorem biconditional_with_gap_split :
    Formula.var 'p' ≠ .missing ∧ Formula.not .missing ≠ .missing ∧ Formula.var 'q' ≠ .missing ∧
    eval (.ofList [('q', true)])
      (.binary .or (.var 'q') (.not (.binary .and (.binary .implies (.var 'p') (.not .missing))
        (.binary .implies (.not .missing) (.var 'p'))))) = .error (.unknownVariable 'p') ∧
    eval (.ofList [('p', true), ('q', false)])
      (.binary .or (.var 'q') (.binary .nand (.var 'p') (.var 'q'))) = .ok true ∧
    eval (.ofList [('p', true), ('q', false)])
      (.binary .or (.var 'q') (.not (.binary .and (.var 'p') (.var 'q')))) = .ok true := by
  have presentP : Formula.var 'p' ≠ .missing := by simp
  have presentQ : Formula.var 'q' ≠ .missing := by simp
  have presentGap : Formula.not .missing ≠ .missing := by simp
  obtain ⟨evaluated, _⟩ := laws_hold_in_every_place presentP presentGap .iff
    (.right .or (.var 'q') (.not .here))
  obtain ⟨denied, _⟩ := laws_hold_in_every_place presentP presentQ .nand
    (.right .or (.var 'q') .here)
  have unknown : eval (.ofList [('q', true)])
      (.binary .or (.var 'q') (.not (.binary .iff (.var 'p') (.not .missing)))) =
        .error (.unknownVariable 'p') :=
    eval_of_faulty (by simp) rfl
  have holds : eval (.ofList [('p', true), ('q', false)])
      (.binary .or (.var 'q') (.binary .nand (.var 'p') (.var 'q'))) = .ok true :=
    eval_of_faultless (by simp) rfl
  exact ⟨presentP, presentGap, presentQ, (evaluated _).symm.trans unknown, holds,
    (denied _).symm.trans holds⟩

end Formula

end Sentential
