import Sentential.Formula.Substitution
import Sentential.Proofs.Balance
import Sentential.Proofs.Reading

/-!
Substitution in a text. A formula that is written in parentheses for a variable is nested as one
group where the variable was a token, and the search for a main connective treats the two alike. So
the text falls apart as before, with the formula in the place of the variable, whatever connectives
the formula has and whether or not the text is one that can be read.
-/
namespace Sentential

variable {name : Char} {tokens inner rest : List Token} {items content : List Item} {opened : Int}

namespace Token

/-- Puts tokens in parentheses for every occurrence of the variable `name`. -/
def subst (name : Char) (inner tokens : List Token) : List Token :=
  tokens.flatMap fun t =>
    if t = .var name then .leftParen :: (inner ++ [.rightParen]) else [t]

theorem subst_cons (name : Char) (inner tokens : List Token) (t : Token) :
    subst name inner (t :: tokens) =
      (if t = .var name then .leftParen :: (inner ++ [.rightParen]) else [t]) ++
        subst name inner tokens :=
  List.flatMap_cons

theorem subst_append (name : Char) (inner tokens more : List Token) :
    subst name inner (tokens ++ more) = subst name inner tokens ++ subst name inner more :=
  List.flatMap_append

/-- No other character is read as the variable, so writing for a character and putting tokens for a
variable come to the same. -/
theorem ofText_substText (named : ofChar? name = some (.var name)) (inner text : String) :
    ofText (Formula.substText name inner text) = subst name (ofText inner) (ofText text) := by
  have opened : ofChar? '(' = some .leftParen := by decide
  have closed : ofChar? ')' = some .rightParen := by decide
  simp only [ofText, Formula.substText, String.toList_ofList]
  induction text.toList with
  | nil => rfl
  | cons c chars ih =>
    rw [List.flatMap_cons, List.filterMap_append, ih]
    by_cases same : c = name
    · subst same
      simp [named, opened, closed, subst_cons]
    · cases read : ofChar? c with
      | none => simp [same, read]
      | some t =>
        have other : t ≠ .var name := by
          rintro rfl
          exact same (ofChar?_eq_var_iff.mp read).2
        simp [same, read, subst_cons, other]

end Token

namespace Item

mutual

/-- Puts a group for every occurrence of the variable `name`, inside groups as well. -/
def substOne (name : Char) (content : List Item) : Item → Item
  | .token t => if t = .var name then .group content else .token t
  | .group items => .group (subst name content items)

def subst (name : Char) (content : List Item) : List Item → List Item
  | [] => []
  | item :: items => item.substOne name content :: subst name content items

end

theorem subst_eq_map (name : Char) (content items : List Item) :
    subst name content items = items.map (substOne name content) := by
  induction items with
  | nil => rfl
  | cons item items ih => rw [subst, ih, List.map_cons]

theorem flatten_subst (name : Char) (content items : List Item) :
    flatten (subst name content items) = Token.subst name (flatten content) (flatten items) := by
  induction items using Item.induction with
  | nil => rfl
  | token t items ih =>
    rw [subst, substOne, flatten, flatten, flattenOne, List.singleton_append, Token.subst_cons, ih]
    by_cases same : t = .var name
    · rw [if_pos same, if_pos same, flattenOne]
    · rw [if_neg same, if_neg same, flattenOne]
  | group inside items ihInside ih =>
    rw [subst, substOne, flatten, flatten, Token.subst_append, ih, flattenOne, ihInside]
    simp [flattenOne, Token.subst]

theorem parenFree_subst (cleanContent : ParenFree content) (clean : ParenFree items) :
    ParenFree (subst name content items) := by
  induction items using Item.induction with
  | nil => trivial
  | token t items ih =>
    obtain ⟨plain, others⟩ := clean
    refine ⟨?_, ih others⟩
    by_cases same : t = .var name
    · rw [substOne, if_pos same]
      exact cleanContent
    · rw [substOne, if_neg same]
      exact plain
  | group inside items ihInside ih =>
    obtain ⟨cleanInside, others⟩ := clean
    exact ⟨ihInside cleanInside, ih others⟩

@[simp] theorem rank_substOne (name : Char) (content : List Item) (item : Item) :
    (item.substOne name content).rank = item.rank := by
  cases item with
  | group items => rfl
  | token t =>
    rw [substOne]
    split
    next same =>
      rw [same]
      rfl
    next => rfl

end Item

/-- What opens and closes parentheses of its own only can be left out. -/
theorem balancedWithin_append_iff (balanced : Balanced inner) :
    BalancedWithin opened (inner ++ rest) ↔ BalancedWithin opened rest := by
  obtain ⟨neverInner, totalInner⟩ := balanced
  constructor
  · rintro ⟨never, total⟩
    refine ⟨fun n => ?_, ?_⟩
    · have later := never (inner.length + n)
      simpa [List.take_length_add_append, totalInner] using later
    · simpa [totalInner] using total
  · rintro ⟨never, total⟩
    refine ⟨fun n => ?_, ?_⟩
    · have first := neverInner n
      have later := never (n - inner.length)
      have start := never 0
      rw [List.take_append, depth_append]
      by_cases inside : n ≤ inner.length
      · rw [Nat.sub_eq_zero_of_le inside] at later ⊢
        simp only [List.take_zero, depth_nil] at start ⊢
        omega
      · rw [List.take_of_length_le (by omega), totalInner]
        simpa using later
    · simpa [totalInner] using total

/-- Parentheses around a balanced sequence raise the depth and bring it back, and a variable leaves
it as it is. -/
theorem balancedWithin_subst_iff (balanced : Balanced inner) :
    BalancedWithin opened (Token.subst name inner tokens) ↔ BalancedWithin opened tokens := by
  induction tokens generalizing opened with
  | nil => rfl
  | cons t tokens ih =>
    rw [Token.subst_cons]
    by_cases same : t = .var name
    · have around : opened + Token.leftParen.step + Token.rightParen.step = opened := by
        simp only [Token.step]
        omega
      have raised : 0 ≤ opened → 0 ≤ opened + Token.leftParen.step := by
        simp only [Token.step]
        omega
      have level : (Token.var name).step = 0 := rfl
      simp only [same, if_true, List.cons_append, List.append_assoc, List.nil_append,
        balancedWithin_cons_iff, balancedWithin_append_iff balanced, around, ih, level,
        Int.add_zero]
      constructor
      · rintro ⟨start, _, after⟩
        exact ⟨start, after⟩
      · rintro ⟨start, after⟩
        exact ⟨start, raised start, after⟩
    · simp only [same, if_false, List.singleton_append, balancedWithin_cons_iff, ih]

namespace Item

theorem ofTokens_subst (nestedInner : ofTokens inner = .ok content)
    (nested : ofTokens tokens = .ok items) :
    ofTokens (Token.subst name inner tokens) = .ok (subst name content items) := by
  rw [← flatten_of_ofTokens nestedInner, ← flatten_of_ofTokens nested, ← flatten_subst]
  apply ofTokens_flatten
  exact parenFree_subst (parenFree_of_ofTokens nestedInner) (parenFree_of_ofTokens nested)

/-- Parentheses match after a substitution only where they did before. -/
theorem exists_items_of_ofTokens_subst (balanced : Balanced inner)
    (nested : ofTokens (Token.subst name inner tokens) = .ok items) :
    ∃ others, ofTokens tokens = .ok others := by
  apply nest_isOk_iff.mpr
  apply (balancedWithin_subst_iff balanced).mp
  exact nest_isOk_iff.mp ⟨items, nested⟩

end Item

namespace Split

/-- The main connective stands where it stood before. -/
theorem ofItems?_subst {split : Split} (found : ofItems? items = some split) :
    ofItems? (Item.subst name content items) =
      some ⟨Item.subst name content split.before, split.operator,
        Item.subst name content split.after⟩ := by
  obtain ⟨rfl, before, after⟩ := ofItems?_eq_some_iff.mp found
  refine ofItems?_eq_some_iff.mpr ⟨?_, ?_, ?_⟩
  · simp [Split.items, Item.subst_eq_map, Item.substOne]
  · simpa [Item.subst_eq_map] using before
  · simpa [Item.subst_eq_map] using after

theorem ofItems?_subst_of_none (unsplit : ofItems? items = none) :
    ofItems? (Item.subst name content items) = none := by
  have unranked := ofItems?_eq_none_iff.mp unsplit
  apply ofItems?_of_unranked
  simpa [Item.subst_eq_map] using unranked

end Split

namespace Outline

/-- Puts the outline of a group for every occurrence of the variable `name`. -/
def subst (name : Char) (content : List Item) : Outline → Outline
  | .vacant => .vacant
  | .var other => if other = name then .group (ofItems content) else .var other
  | .lone t => .lone t
  | .group outline => .group (outline.subst name content)
  | .not skipped operand => .not (Item.subst name content skipped) (operand.subst name content)
  | .binary op left right => .binary op (left.subst name content) (right.subst name content)

theorem ofItems_subst (name : Char) (content items : List Item) :
    ofItems (Item.subst name content items) = (ofItems items).subst name content := by
  induction items using Outline.induction with
  | not items split found negation ih =>
    rw [ofItems_of_not found negation, ofItems_of_not (Split.ofItems?_subst found) negation, ih,
      subst]
  | binary items split op found connective ihl ihr =>
    rw [ofItems_of_binary found connective,
      ofItems_of_binary (Split.ofItems?_subst found) connective, ihl, ihr, subst]
  | group items ih =>
    rw [Item.subst, Item.subst, Item.substOne, ofItems_group, ofItems_group, ih, subst]
  | var other =>
    rw [Item.subst, Item.subst, Item.substOne, ofItems_var, subst]
    by_cases same : other = name
    · rw [if_pos (congrArg Token.var same), if_pos same, ofItems_group]
    · have differs : Token.var other ≠ .var name := fun equal => same (Token.var.inj equal)
      rw [if_neg differs, if_neg same, ofItems_var]
  | paren t paren =>
    have differs : t ≠ .var name := by
      rintro rfl
      contradiction
    rw [Item.subst, Item.subst, Item.substOne, if_neg differs, ofItems_paren paren, subst]
  | vacant items unsplit several =>
    have stillSeveral : ∀ item, Item.subst name content items ≠ [item] := by
      intro item single
      rw [Item.subst_eq_map] at single
      obtain ⟨other, alone, -⟩ := List.map_eq_singleton_iff.mp single
      exact several other alone
    rw [ofItems_vacant unsplit several,
      ofItems_vacant (Split.ofItems?_subst_of_none unsplit) stillSeveral, subst]

/-- A strict reading goes the same way as before and finds the formula wherever it found the
variable. -/
theorem read_strict_subst {f : Formula} (inner : (ofItems content).read .strict = .ok f)
    (outline : Outline) :
    (outline.subst name content).read .strict =
      (outline.read .strict).map (Formula.subst name f) := by
  induction outline with
  | vacant | lone => rfl
  | var other =>
    by_cases same : other = name
    · simp [subst, same, read, inner, Except.map, Formula.subst, pure, Except.pure]
    · simp [subst, same, read, Except.map, Formula.subst, pure, Except.pure]
  | group outline ih => exact ih
  | not skipped operand ih =>
    rw [subst, read, read, ih]
    cases skipped with
    | nil => cases operand.read .strict <;> rfl
    | cons => rfl
  | binary op left right ihl ihr =>
    rw [subst, read, read, ihl, ihr]
    cases left.read .strict with
    | error => rfl
    | ok l => cases right.read .strict <;> rfl

end Outline

namespace Formula

variable {s t : String} {f : Formula}

theorem ofChar?_of_ofText_singleton (token : Token.ofText (.singleton name) = [.var name]) :
    Token.ofChar? name = some (.var name) := by
  rw [Token.ofText, String.toList_singleton] at token
  cases read : Token.ofChar? name with
  | none => simp [read] at token
  | some t => simpa [read] using token

theorem read_substText (named : Token.ofChar? name = some (.var name)) (inner : read s = .ok f)
    (nested : Item.ofTokens (Token.ofText t) = .ok items) :
    read (substText name s t) = (read t).map (subst name f) := by
  obtain ⟨content, nestedInner, readInner⟩ := exists_items_of_read inner
  have nestedAfter : Item.ofTokens (Token.ofText (substText name s t)) =
      .ok (Item.subst name content items) := by
    rw [Token.ofText_substText named]
    exact Item.ofTokens_subst nestedInner nested
  rw [read_eq nestedAfter, Outline.ofItems_subst, Outline.read_strict_subst readInner,
    read_eq nested]

theorem mismatched_substText (named : Token.ofChar? name = some (.var name))
    (inner : read s = .ok f) {mismatch : Error}
    (mismatched : Item.ofTokens (Token.ofText t) = .error mismatch) :
    ∃ position, read (substText name s t) = .error (.mismatchedParenthesis position) := by
  obtain ⟨content, nestedInner, _⟩ := exists_items_of_read inner
  have balanced := Item.balanced_of_ofTokens nestedInner
  cases after : Item.ofTokens (Token.ofText (substText name s t)) with
  | error fault =>
    obtain ⟨position, rfl⟩ := Item.mismatch_of_nest after
    exact ⟨position, read_eq_error after⟩
  | ok items =>
    rw [Token.ofText_substText named] at after
    obtain ⟨others, nested⟩ := Item.exists_items_of_ofTokens_subst balanced after
    simp [mismatched] at nested

/-- To write a formula in parentheses for a variable of a text is to put the formula for the
variable in what the text says. The text is a formula before just where it is one afterwards, and
its parentheses match before just where they match afterwards. -/
theorem substitution_commutes_with_reading (token : Token.ofText (.singleton name) = [.var name])
    (inner : read s = .ok f) (t : String) :
    (∀ e, read t = .ok e → read (substText name s t) = .ok (subst name f e)) ∧
    (read t = .error .invalidFormula → read (substText name s t) = .error .invalidFormula) ∧
    ((∃ position, read (substText name s t) = .error (.mismatchedParenthesis position)) ↔
      ∃ position, read t = .error (.mismatchedParenthesis position)) := by
  have named := ofChar?_of_ofText_singleton token
  cases nested : Item.ofTokens (Token.ofText t) with
  | ok items =>
    rw [read_substText named inner nested]
    cases read t <;> simp [Except.map]
  | error mismatch =>
    obtain ⟨position, rfl⟩ := Item.mismatch_of_nest nested
    have before := read_eq_error nested
    have after := mismatched_substText named inner nested
    refine ⟨?_, ?_, ⟨fun _ => ⟨position, before⟩, fun _ => after⟩⟩
    · intro e accepted
      simp [before] at accepted
    · intro invalid
      simp [before] at invalid

theorem read_two_variables {text : String} {l r : Char} {op : Connective}
    (nested : Item.ofTokens (Token.ofText text) =
      .ok [.token (.var l), .token (.operator (.binary op)), .token (.var r)]) :
    read text = .ok (.binary op (.var l) (.var r)) := by
  have loose := op.one_lt_precedence
  have lower : ∀ item ∈ [Item.token (.var l)], item.rank < op.precedence := by
    simpa using Nat.zero_lt_of_lt loose
  have upper : ∀ item ∈ [Item.token (.var r)], item.rank ≤ op.precedence := by simp
  have outline := Outline.ofItems_binary lower upper
  rw [Outline.ofItems_var, Outline.ofItems_var, List.singleton_append] at outline
  rw [read_eq nested, outline]
  rfl

theorem looser_formula_kept_together :
    Token.ofText (.singleton 'p') = [.var 'p'] ∧
    read "q ∨ p" = .ok (.binary .or (.var 'q') (.var 'p')) ∧
    read "(q ∨ p) ∧ r" = .ok (.binary .and (.binary .or (.var 'q') (.var 'p')) (.var 'r')) ∧
    read "(q ∨ p) r" = .error .invalidFormula ∧
    ∃ position, read "((q ∨ p)" = .error (.mismatchedParenthesis position) := by
  have token : Token.ofText (.singleton 'p') = [.var 'p'] := by rfl
  have inner : read "q ∨ p" = .ok (.binary .or (.var 'q') (.var 'p')) :=
    read_two_variables rfl
  have outer : read "p ∧ r" = .ok (.binary .and (.var 'p') (.var 'r')) :=
    read_two_variables rfl
  have sideBySide : read "p r" = .error .invalidFormula := by
    have nested : Item.ofTokens (Token.ofText "p r") =
        .ok [.token (.var 'p'), .token (.var 'r')] := by rfl
    rw [read_eq nested, Outline.ofItems_vacant rfl (by simp)]
    rfl
  have unclosed : read "(p" = .error (.mismatchedParenthesis 0) := read_eq_error rfl
  obtain ⟨accepted, _, _⟩ := substitution_commutes_with_reading token inner "p ∧ r"
  obtain ⟨_, invalid, _⟩ := substitution_commutes_with_reading token inner "p r"
  obtain ⟨_, _, mismatched⟩ := substitution_commutes_with_reading token inner "(p"
  exact ⟨token, inner, accepted _ outer, invalid sideBySide, mismatched.mpr ⟨0, unclosed⟩⟩

end Formula

end Sentential
