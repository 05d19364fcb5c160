import Mathlib.Data.List.Induction
import Sentential.Proofs.Validity
import Sentential.Proofs.Yield

/-!
The variables of a formula, from the text that it is read from to its evaluation. A formula lists
each of its variables once, in the order in which they first occur. A text that is read strictly has
its variables in the formula, all of them and in order, so they are listed in the order in which
they first stand in the text. Such a formula is complete: it has a value where all of
its variables have one, and else the first one in the text that has none is named.
-/
namespace Sentential

namespace Token

def name? : Token → Option Char
  | .var name => some name
  | _ => none

/-- The names of the variables among tokens, as they come. -/
def names (tokens : List Token) : List Char :=
  tokens.filterMap name?

@[simp] theorem names_operator (op : Operator) (tokens : List Token) :
    names (.operator op :: tokens) = names tokens :=
  rfl

@[simp] theorem names_append (tokens more : List Token) :
    names (tokens ++ more) = names tokens ++ names more :=
  List.filterMap_append

theorem names_filter_not_isParen (tokens : List Token) :
    names (tokens.filter (!·.isParen)) = names tokens := by
  have unnamed : (fun t : Token => if !t.isParen then t.name? else none) = name? := by
    funext t
    cases t <;> rfl
  rw [names, List.filterMap_filter, unnamed, names]

end Token

theorem mem_removeAll_iff {names others : List Char} {name : Char} :
    name ∈ names.removeAll others ↔ name ∈ names ∧ name ∉ others := by
  simp [List.removeAll]

theorem removeAll_concat (names found : List Char) (name : Char) :
    names.removeAll (found ++ [name]) = (names.removeAll found).filter (!· == name) := by
  rw [List.removeAll, List.removeAll, List.filter_filter]
  congr
  funext other
  simp [Bool.and_comm, Bool.beq_eq_decide_eq]

/-- Repetitions can be left out before other names are left out, or after that. -/
theorem eraseDups_filter (kept : Char → Bool) (names : List Char) :
    (names.filter kept).eraseDups = names.eraseDups.filter kept := by
  induction names using List.reverseRecOn with
  | nil => rfl
  | append_singleton names name ih =>
    have last : (([name].filter kept).removeAll names).eraseDups =
        ([name].removeAll names).eraseDups.filter kept := by
      have single : [name].eraseDups = [name] := rfl
      cases keeps : kept name <;> by_cases known : name ∈ names <;>
        simp [keeps, known, List.cons_removeAll, single]
    rw [List.filter_append, List.eraseDups_append, List.filter_removeAll_filter, ih, last,
      List.eraseDups_append, List.filter_append]

theorem head?_eraseDups (names : List Char) : names.eraseDups.head? = names.head? := by
  cases names with
  | nil => rfl
  | cons name names => rw [List.eraseDups_cons, List.head?_cons, List.head?_cons]

/-- Names without repetitions come in the order of their first places. -/
theorem pairwise_idxOf_eraseDups (names : List Char) :
    names.eraseDups.Pairwise fun first second => names.idxOf first < names.idxOf second := by
  induction names using List.reverseRecOn with
  | nil => exact List.Pairwise.nil
  | append_singleton names name ih =>
    rw [List.eraseDups_append, List.pairwise_append]
    refine ⟨ih.imp_of_mem ?_, ?_, ?_⟩
    · intro first second memberFirst memberSecond before
      rw [List.idxOf_append_of_mem (List.mem_eraseDups.mp memberFirst),
        List.idxOf_append_of_mem (List.mem_eraseDups.mp memberSecond)]
      exact before
    · have single : [name].eraseDups = [name] := rfl
      by_cases known : name ∈ names <;> simp [List.cons_removeAll, known, single]
    · intro first memberFirst second memberSecond
      have earlier := List.mem_eraseDups.mp memberFirst
      obtain ⟨last, new⟩ := mem_removeAll_iff.mp (List.mem_eraseDups.mp memberSecond)
      obtain rfl := List.mem_singleton.mp last
      have within := List.idxOf_lt_length_iff.mpr earlier
      rw [List.idxOf_append_of_mem earlier, List.idxOf_append_of_notMem new]
      omega

namespace Formula

variable {e : Formula} {s : Assignment} {text : String}

theorem names_yield (e : Formula) : Token.names e.yield = e.occurrences := by
  induction e with
  | missing | var => rfl
  | not operand ih => simpa [yield, occurrences] using ih
  | binary op left right ihl ihr => simp [yield, occurrences, ihl, ihr]

theorem occurrences_of_read (accepted : read text = .ok e) :
    e.occurrences = Token.names (Token.ofText text) := by
  rw [← names_yield, yield_of_read accepted, Token.names_filter_not_isParen]

/-- To the names found before, the others are added in the order in which they first occur. -/
theorem collect_eq (found : List Char) (stack : List Formula) :
    collect found stack = found ++ ((stack.flatMap occurrences).removeAll found).eraseDups := by
  fun_induction collect found stack with
  | case1 found => simp
  | case2 found stack ih => simp [ih, occurrences]
  | case3 found name stack known ih =>
    rw [ih, List.flatMap_cons, occurrences, List.singleton_append, List.cons_removeAll, known]
    rfl
  | case4 found name stack new ih =>
    have new : found.contains name = false := by simpa using new
    rw [ih, List.flatMap_cons, occurrences, List.singleton_append, List.cons_removeAll, new,
      if_pos rfl, List.eraseDups_cons, removeAll_concat, List.append_assoc, List.singleton_append]
  | case5 found operand stack ih => simp [ih, occurrences]
  | case6 found op left right stack ih => simp [ih, occurrences]

theorem names_eq_eraseDups (e : Formula) : e.names = e.occurrences.eraseDups := by
  simp [names, collect_eq]

/-- The first name of some kind is the same with repetitions and without. -/
theorem find?_names (e : Formula) (sought : Char → Bool) :
    e.names.find? sought = e.occurrences.find? sought := by
  rw [names_eq_eraseDups, ← List.head?_filter, ← eraseDups_filter, head?_eraseDups,
    List.head?_filter]

/-- The right operand adds the names that the left one does not have. -/
theorem names_binary (op : Connective) (left right : Formula) :
    (binary op left right).names = left.names ++ right.names.removeAll left.names := by
  have same : right.occurrences.removeAll left.occurrences =
      right.occurrences.removeAll left.names := by
    simp [List.removeAll, mem_names_iff]
  rw [names_eq_eraseDups, occurrences, List.eraseDups_append, same, List.removeAll,
    eraseDups_filter, ← names_eq_eraseDups, ← names_eq_eraseDups, List.removeAll]

theorem nodup_collect {found : List Char} {stack : List Formula} (distinct : found.Nodup) :
    (collect found stack).Nodup := by
  fun_induction collect found stack with
  | case1 found => exact distinct
  | case2 found stack ih => exact ih distinct
  | case3 found name stack known ih => exact ih distinct
  | case4 found name stack new ih =>
    have new : name ∉ found := by simpa using new
    refine ih (List.nodup_append.mpr ⟨distinct, List.pairwise_singleton _ name, ?_⟩)
    rintro other member last single rfl
    exact new (List.mem_singleton.mp single ▸ member)
  | case5 found operand stack ih => exact ih distinct
  | case6 found op left right stack ih => exact ih distinct

theorem nodup_names (e : Formula) : e.names.Nodup :=
  nodup_collect List.nodup_nil

/-- The names of a formula are those of its variables from left to right, with all later repetitions
left out: each name that occurs is listed once, and those that occur first come first. A right
operand adds to the names of the left one those that are new, in its own order. -/
theorem names_listed_at_first_occurrence :
    (∀ e : Formula, e.names = e.occurrences.eraseDups ∧ e.names.Nodup ∧
      (∀ name, name ∈ e.names ↔ name ∈ e.occurrences) ∧
      e.names.Pairwise fun first second =>
        e.occurrences.idxOf first < e.occurrences.idxOf second) ∧
    ∀ (op : Connective) (left right : Formula), (binary op left right).names =
      left.names ++ right.names.filter (· ∉ left.names) := by
  refine ⟨fun e => ⟨e.names_eq_eraseDups, e.nodup_names, fun name => mem_names_iff, ?_⟩,
    fun op left right => ?_⟩
  · rw [names_eq_eraseDups]
    exact pairwise_idxOf_eraseDups e.occurrences
  · rw [names_binary, List.removeAll]
    simp

/-- A text that is read strictly can be evaluated. Its formula is complete and lists the variables
of the text, each where it stands first. Under an assignment it has a value, or the first variable
of the text that has no value there is at fault and nothing else is. Its table can always be
made. -/
theorem read_text_evaluates (accepted : read text = .ok e) :
    e.isComplete = true ∧ e.names = (Token.names (Token.ofText text)).eraseDups ∧
    (∀ s : Assignment,
      ((∀ name ∈ Token.names (Token.ofText text), s.contains name = true) →
        ∃ value, e.eval s = .ok value) ∧
      (∀ name, (Token.names (Token.ofText text)).find? (!s.contains ·) = some name →
        e.eval s = .error (.unknownVariable name)) ∧
      e.eval s ≠ .error .invalidFormula) ∧
    (∃ table, e.truthTable = .ok table) ∧ (∃ b, e.isTautology = .ok b) ∧
      ∃ b, e.isSatisfiable = .ok b := by
  have complete := isComplete_of_read accepted
  have listed := occurrences_of_read accepted
  refine ⟨complete, listed ▸ names_eq_eraseDups e, fun s => ?_,
    ⟨_, truthTable_of_complete complete⟩, ⟨_, isTautology_of_complete complete⟩,
    ⟨_, isSatisfiable_of_complete complete⟩⟩
  rw [← listed]
  refine ⟨fun known => ⟨_, eval_of_known complete known⟩,
    fun name first => eval_of_unknown complete first, ?_⟩
  cases first : e.occurrences.find? (!s.contains ·) with
  | none =>
    have known : ∀ name ∈ e.occurrences, s.contains name = true := by
      simpa using List.find?_eq_none.mp first
    simp [eval_of_known complete known]
  | some name => simp [eval_of_unknown complete first]

theorem repeated_variable_listed_once :
    read "q ∧ p ∧ q" = .ok (.binary .and (.var 'q') (.binary .and (.var 'p') (.var 'q'))) ∧
    names (.binary .and (.var 'q') (.binary .and (.var 'p') (.var 'q'))) = ['q', 'p'] ∧
    eval (.ofList [('q', false)]) (.binary .and (.var 'q') (.binary .and (.var 'p') (.var 'q'))) =
      .error (.unknownVariable 'p') ∧
    (∃ value, eval (.ofList [('p', true), ('q', false)])
      (.binary .and (.var 'q') (.binary .and (.var 'p') (.var 'q'))) = .ok value) ∧
    ∃ b, isTautology (.binary .and (.var 'q') (.binary .and (.var 'p') (.var 'q'))) = .ok b := by
  have accepted : read "q ∧ p ∧ q" =
      .ok (.binary .and (.var 'q') (.binary .and (.var 'p') (.var 'q'))) := by
    have nested : Item.ofTokens (Token.ofText "q ∧ p ∧ q") =
        .ok ([.token (.var 'q')] ++ .token (.operator (.binary .and)) ::
          ([.token (.var 'p')] ++ .token (.operator (.binary .and)) :: [.token (.var 'q')])) := by
      rfl
    rw [read_eq nested, Outline.ofItems_binary (by decide) (by decide),
      Outline.ofItems_binary (by decide) (by decide), Outline.ofItems_var, Outline.ofItems_var]
    rfl
  obtain ⟨_, listed, evaluated, _, tautology, _⟩ := read_text_evaluates accepted
  have known : ∀ name ∈ Token.names (Token.ofText "q ∧ p ∧ q"),
      (Assignment.ofList [('p', true), ('q', false)]).contains name = true := by
    rw [← occurrences_of_read accepted]
    simp [occurrences, Assignment.contains_ofList_iff]
  exact ⟨accepted, listed, (evaluated _).2.1 'p' rfl, (evaluated _).1 known, tautology⟩

end Formula

end Sentential
