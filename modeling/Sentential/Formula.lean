import Sentential.Error

/-!
Formulas of propositional logic. A formula may have gaps: `missing` stands where an operand is
absent, and by itself for no formula at all. Only a formula without gaps is complete. The nodes of a
formula are visited without recursion into it: the parts still to be visited are kept on a stack.
-/
namespace Sentential

inductive Formula
  | missing
  | var (name : Char)
  | not (operand : Formula)
  | binary (op : Connective) (left right : Formula)
  deriving DecidableEq

namespace Formula

/-- The variable of a name, which has to be one character. -/
def ofName (name : String) : Except Misuse Formula :=
  match name.toList with
  | [c] => .ok (.var c)
  | _ => .error (.notOneCharacter name)

/-- How many connectives, variables and gaps there are. -/
def size : Formula → Nat
  | .missing | .var _ => 1
  | .not operand => operand.size + 1
  | .binary _ left right => left.size + right.size + 1

def isMissing : Formula → Bool
  | .missing => true
  | _ => false

/-- How many nodes there are in formulas that are still to be visited. -/
def totalSize : List Formula → Nat
  | [] => 0
  | e :: stack => e.size + totalSize stack

/-- Visits formulas and all of their parts, and stops where an operand is absent. -/
def checkAll : List Formula → Except Error Unit
  | [] => .ok ()
  | .missing :: _ => .error .invalidFormula
  | .var _ :: stack => checkAll stack
  | .not operand :: stack =>
    if operand.isMissing then .error .invalidFormula else checkAll (operand :: stack)
  | .binary _ left right :: stack =>
    if left.isMissing || right.isMissing then .error .invalidFormula
    else checkAll (right :: left :: stack)
termination_by stack => totalSize stack
decreasing_by all_goals simp only [totalSize, size]; omega

def checkComplete (e : Formula) : Except Error Unit :=
  checkAll [e]

def isComplete (e : Formula) : Bool :=
  e.checkComplete.isOk

/-- The names of all variables as they occur from left to right. -/
def occurrences : Formula → List Char
  | .missing => []
  | .var name => [name]
  | .not operand => operand.occurrences
  | .binary _ left right => left.occurrences ++ right.occurrences

/-- Visits formulas and all of their parts from left to right, and puts each new name at the end of
the names found before it. -/
def collect (found : List Char) : List Formula → List Char
  | [] => found
  | .missing :: stack => collect found stack
  | .var name :: stack =>
    if found.contains name then collect found stack else collect (found ++ [name]) stack
  | .not operand :: stack => collect found (operand :: stack)
  | .binary _ left right :: stack => collect found (left :: right :: stack)
termination_by stack => totalSize stack
decreasing_by all_goals simp only [totalSize, size]; omega

/-- The name of each variable once, in the order of first occurrence. -/
def names (e : Formula) : List Char :=
  collect [] [e]

variable {e : Formula}

@[simp] theorem isMissing_var (name : Char) : (var name).isMissing = false :=
  rfl

@[simp] theorem isMissing_not (operand : Formula) : (not operand).isMissing = false :=
  rfl

@[simp] theorem isMissing_binary (op : Connective) (left right : Formula) :
    (binary op left right).isMissing = false :=
  rfl

theorem checkAll_append (stack more : List Formula) :
    checkAll (stack ++ more) = checkAll stack >>= fun _ => checkAll more := by
  fun_induction checkAll stack with
  | case1 => rfl
  | case2 =>
    rw [List.cons_append, checkAll]
    rfl
  | case3 name stack ih => rw [List.cons_append, checkAll, ih]
  | case4 operand stack missing | case6 op left right stack missing =>
    rw [List.cons_append, checkAll, if_pos missing]
    rfl
  | case5 operand stack present ih | case7 op left right stack present ih =>
    rw [List.cons_append, checkAll, if_neg present, ← ih]
    rfl

theorem isOk_checkAll (e : Formula) (stack : List Formula) :
    (checkAll (e :: stack)).isOk = (e.isComplete && (checkAll stack).isOk) := by
  rw [← List.singleton_append, checkAll_append, isComplete, checkComplete]
  cases checkAll [e] <;> rfl

theorem isComplete_of_isMissing (missing : e.isMissing = true) : e.isComplete = false := by
  cases e with
  | missing =>
    rw [isComplete, checkComplete, checkAll]
    rfl
  | var | not | binary => contradiction

@[simp] theorem isComplete_missing : missing.isComplete = false :=
  isComplete_of_isMissing rfl

@[simp] theorem isComplete_var (name : Char) : (var name).isComplete = true := by
  rw [isComplete, checkComplete, checkAll, checkAll]
  rfl

@[simp] theorem isComplete_not (operand : Formula) :
    (not operand).isComplete = operand.isComplete := by
  rw [isComplete, checkComplete, checkAll]
  split
  next missing =>
    rw [isComplete_of_isMissing missing]
    rfl
  next present => rfl

@[simp] theorem isComplete_binary (op : Connective) (left right : Formula) :
    (binary op left right).isComplete = (left.isComplete && right.isComplete) := by
  rw [isComplete, checkComplete, checkAll]
  split
  next missing =>
    rcases Bool.or_eq_true_iff.mp missing with missing | missing
    · rw [isComplete_of_isMissing missing]
      rfl
    · rw [isComplete_of_isMissing missing, Bool.and_false]
      rfl
  next present =>
    rw [isOk_checkAll, Bool.and_comm]
    rfl

theorem mem_collect_iff {found : List Char} {stack : List Formula} {name : Char} :
    name ∈ collect found stack ↔ name ∈ found ∨ ∃ e ∈ stack, name ∈ e.occurrences := by
  fun_induction collect found stack with
  | case1 found => simp
  | case2 found stack ih => simp [ih, occurrences]
  | case3 found other stack known ih =>
    have known : other ∈ found := by simpa using known
    simp only [ih, List.mem_cons, exists_eq_or_imp, occurrences, List.not_mem_nil, or_false]
    grind
  | case4 found other stack new ih =>
    simp [ih, occurrences, or_assoc]
  | case5 found operand stack ih => simp [ih, occurrences]
  | case6 found op left right stack ih => simp [ih, occurrences, or_assoc]

theorem mem_names_iff {name : Char} : name ∈ e.names ↔ name ∈ e.occurrences := by
  simp [names, mem_collect_iff]

theorem names_not (operand : Formula) : (not operand).names = operand.names := by
  rw [names, collect, names]

end Formula

end Sentential
