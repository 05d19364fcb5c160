import Sentential.Formula.Text
import Sentential.Proofs.Nesting
import Sentential.Proofs.Yield

/-!
Writing a formula and reading it again. The written form is read back as the same formula, gaps
included, as long as the name of each variable is a character that names a variable when it is read.
Readings make no other names, so whatever has been read from a text survives writing and reading,
and a text that is read strictly and written again has changed in white space and parentheses only.
-/
namespace Sentential

namespace Formula

variable {e : Formula} {text : String}

def HasPlainNames (e : Formula) : Prop :=
  ∀ name ∈ e.occurrences, Token.Plain name

instance (e : Formula) : Decidable e.HasPlainNames :=
  List.decidableBAll Token.Plain e.occurrences

/-- The characters of the written form, by recursion on the formula. -/
def chars : Formula → List Char
  | .missing => ['(', ')']
  | .var name => [name]
  | .not operand => Operator.not.symbol :: operand.chars
  | .binary op left right =>
    '(' :: (left.chars ++ ' ' :: op.symbol :: ' ' :: (right.chars ++ [')']))

/-- The items of the written form. -/
def items : Formula → List Item
  | .missing => [.group []]
  | .var name => [.token (.var name)]
  | .not operand => .token (.operator .not) :: operand.items
  | .binary op left right => [.group (left.items ++ .token (.operator (.binary op)) :: right.items)]

/-- The outline of the written form. -/
def outline : Formula → Outline
  | .missing => .group .vacant
  | .var name => .var name
  | .not operand => .not [] operand.outline
  | .binary op left right => .group (.binary op left.outline right.outline)

theorem write_formula (e : Formula) (written : List Char) (pieces : List Piece) :
    Piece.write written (.formula e :: pieces) =
      Piece.write (e.chars.reverse ++ written) pieces := by
  induction e generalizing written pieces with
  | missing | var => simp [Piece.write, chars]
  | not operand ih => simp [Piece.write, chars, ih]
  | binary op left right ihl ihr => simp [Piece.write, chars, ihl, ihr]

theorem text_eq (e : Formula) : e.text = String.ofList e.chars := by
  simp [text, write_formula, Piece.write]

theorem rank_items_le (e : Formula) : ∀ item ∈ e.items, item.rank ≤ 1 := by
  induction e with
  | missing | var | binary => simp [items]
  | not operand ih => simpa [items, Operator.precedence] using ih

theorem parenFree_items (e : Formula) : Item.ParenFree e.items := by
  induction e with
  | missing => exact ⟨trivial, trivial⟩
  | var name => exact ⟨rfl, trivial⟩
  | not operand ih => exact ⟨rfl, ih⟩
  | binary op left right ihl ihr => exact ⟨Item.parenFree_append.mpr ⟨ihl, rfl, ihr⟩, trivial⟩

theorem ofItems_items (e : Formula) : Outline.ofItems e.items = e.outline := by
  induction e with
  | missing => rw [items, Outline.ofItems_group, Outline.ofItems_nil, outline]
  | var name => exact Outline.ofItems_var name
  | not operand ih => rw [items, Outline.ofItems_not operand.rank_items_le, ih, outline]
  | binary op left right ihl ihr =>
    have loose := op.one_lt_precedence
    have lower : ∀ item ∈ left.items, item.rank < op.precedence := by
      intro item member
      have le := left.rank_items_le item member
      omega
    have upper : ∀ item ∈ right.items, item.rank ≤ op.precedence := by
      intro item member
      have le := right.rank_items_le item member
      omega
    rw [items, Outline.ofItems_group, Outline.ofItems_binary lower upper, ihl, ihr, outline]

theorem formula_outline (e : Formula) : e.outline.formula = e := by
  induction e with
  | missing | var => rfl
  | not operand ih => rw [outline, Outline.formula, ih]
  | binary op left right ihl ihr => rw [outline, Outline.formula, Outline.formula, ihl, ihr]

theorem lossless_outline (e : Formula) : e.outline.Lossless := by
  induction e with
  | missing | var => trivial
  | not operand ih => exact ⟨rfl, ih⟩
  | binary op left right ihl ihr => exact ⟨ihl, ihr⟩

theorem ofText_text (plain : e.HasPlainNames) : Token.ofText e.text = Item.flatten e.items := by
  rw [text_eq, Token.ofText, String.toList_ofList]
  induction e with
  | missing => decide
  | var name =>
    have plain : Token.Plain name := plain name (by simp [occurrences])
    have read : Token.ofChar? name = some (.var name) :=
      Token.ofChar?_eq_var_iff.mpr ⟨plain, rfl⟩
    simp [chars, items, Item.flatten, Item.flattenOne, read]
  | not operand ih =>
    simp [chars, items, Item.flatten, Item.flattenOne, Token.ofChar?_operator, ih plain]
  | binary op left right ihl ihr =>
    have plainLeft : left.HasPlainNames := by
      intro name member
      exact plain name (by simp [occurrences, member])
    have plainRight : right.HasPlainNames := by
      intro name member
      exact plain name (by simp [occurrences, member])
    have opened : Token.ofChar? '(' = some .leftParen := by decide
    have closed : Token.ofChar? ')' = some .rightParen := by decide
    have space : Token.ofChar? ' ' = none := by decide
    have connective : Token.ofChar? op.symbol = some (.operator (.binary op)) :=
      Token.ofChar?_operator (.binary op)
    simp [chars, items, Item.flatten, Item.flattenOne, opened, closed, space, connective,
      ihl plainLeft, ihr plainRight]

theorem nested_text (plain : e.HasPlainNames) :
    Item.ofTokens (Token.ofText e.text) = .ok e.items := by
  rw [ofText_text plain]
  exact Item.ofTokens_flatten e.parenFree_items

theorem ofTokens_text (plain : e.HasPlainNames) :
    ofTokens (Token.ofText e.text) = .ok e := by
  rw [ofTokens_eq (nested_text plain), ofItems_items, formula_outline]

theorem read_text (plain : e.HasPlainNames) :
    read e.text = if e.isComplete then .ok e else .error .invalidFormula := by
  rw [read_eq (nested_text plain), ofItems_items]
  split
  next complete =>
    exact Outline.read_strict_eq_ok_iff.mpr ⟨e.formula_outline, complete, e.lossless_outline⟩
  next incomplete =>
    cases result : e.outline.read .strict with
    | error fault => rw [Outline.invalid_of_read_strict result]
    | ok f =>
      obtain ⟨same, complete, _⟩ := Outline.read_strict_eq_ok_iff.mp result
      rw [← same, formula_outline] at complete
      contradiction

/-- Each name of a formula that is read from a text has been read as a variable there. -/
theorem plain_of_ofTokens (read : ofTokens (Token.ofText text) = .ok e) : e.HasPlainNames := by
  intro name member
  have member := (yield_sublist_of_ofTokens read).subset (var_mem_yield_iff.mpr member)
  exact Token.plain_of_mem_ofText member

theorem ofTokens_of_read (accepted : read text = .ok e) :
    ofTokens (Token.ofText text) = .ok e := by
  obtain ⟨items, nested, strict⟩ := exists_items_of_read accepted
  obtain ⟨same, _⟩ := Outline.read_strict_eq_ok_iff.mp strict
  rw [ofTokens_eq nested, same]

/-- The lenient reading takes a written form back to its formula exactly where the names are plain,
and there the strict reading tells the complete formulas from the others. What either of them makes
of a text has plain names, so it is read again from its own written form. -/
theorem write_then_read :
    (∀ e : Formula, ofTokens (Token.ofText e.text) = .ok e ↔ e.HasPlainNames) ∧
    (∀ e : Formula, e.HasPlainNames →
      read e.text = if e.isComplete then .ok e else .error .invalidFormula) ∧
    ∀ (text : String) (e : Formula),
      read text = .ok e ∨ ofTokens (Token.ofText text) = .ok e →
        e.HasPlainNames ∧ ofTokens (Token.ofText e.text) = .ok e := by
  refine ⟨fun e => ⟨plain_of_ofTokens, ofTokens_text⟩, fun e plain => read_text plain, ?_⟩
  intro text e result
  have lenient : ofTokens (Token.ofText text) = .ok e := result.elim ofTokens_of_read id
  have plain := plain_of_ofTokens lenient
  exact ⟨plain, ofTokens_text plain⟩

theorem negated_gap_read_again : HasPlainNames (.not (.binary .and (.var 'p') .missing)) ∧
    ofTokens (Token.ofText "¬(p ∧ ())") = .ok (.not (.binary .and (.var 'p') .missing)) ∧
    read "¬(p ∧ ())" = .error .invalidFormula := by
  have plain : HasPlainNames (.not (.binary .and (.var 'p') .missing)) := by decide
  have written : (Formula.not (.binary .and (.var 'p') .missing)).text = "¬(p ∧ ())" := by
    rw [text_eq]
    rfl
  obtain ⟨lenient, strict, again⟩ := write_then_read
  rw [← written]
  refine ⟨plain, (again _ _ (.inr ((lenient _).mpr plain))).2, ?_⟩
  rw [strict _ plain]
  simp

theorem read_text_of_read (accepted : read text = .ok e) : read e.text = .ok e := by
  have plain := plain_of_ofTokens (ofTokens_of_read accepted)
  rw [read_text plain, if_pos (isComplete_of_read accepted)]

/-- From a text to the formula that a strict reading makes of it, and from there to the written
form, the variables and operators stay the same and in order: only white space and parentheses
change. A lenient reading may drop some, but it makes none up, doubles none and keeps their
order. -/
theorem reading_and_writing_conserve_yield :
    (∀ (text : String) (e : Formula), read text = .ok e →
      e.yield = (Token.ofText text).filter (!·.isParen) ∧
      (Token.ofText e.text).filter (!·.isParen) = (Token.ofText text).filter (!·.isParen)) ∧
    ∀ (tokens : List Token) (e : Formula), ofTokens tokens = .ok e → e.yield.Sublist tokens := by
  refine ⟨fun text e accepted => ?_, fun tokens e read => yield_sublist_of_ofTokens read⟩
  have fromText := yield_of_read accepted
  have fromWritten := yield_of_read (read_text_of_read accepted)
  exact ⟨fromText, fromWritten.symm.trans fromText⟩

theorem redundant_parentheses_dropped :
    read "((p)) ∧ ¬q" = .ok (.binary .and (.var 'p') (.not (.var 'q'))) ∧
    yield (.binary .and (.var 'p') (.not (.var 'q'))) =
      (Token.ofText "((p)) ∧ ¬q").filter (!·.isParen) ∧
    (Token.ofText (Formula.text (.binary .and (.var 'p') (.not (.var 'q'))))).filter (!·.isParen) =
      (Token.ofText "((p)) ∧ ¬q").filter (!·.isParen) ∧
    ofTokens [.var 'q', .operator .not, .leftParen, .var 'p', .rightParen] =
      .ok (.not (.var 'p')) ∧
    (yield (.not (.var 'p'))).Sublist
      [.var 'q', .operator .not, .leftParen, .var 'p', .rightParen] := by
  have strict : read "((p)) ∧ ¬q" = .ok (.binary .and (.var 'p') (.not (.var 'q'))) := by
    have nested : Item.ofTokens (Token.ofText "((p)) ∧ ¬q") =
        .ok ([.group [.group [.token (.var 'p')]]] ++ .token (.operator (.binary .and)) ::
          [.token (.operator .not), .token (.var 'q')]) := by rfl
    rw [read_eq nested, Outline.ofItems_binary (by decide) (by decide), Outline.ofItems_group,
      Outline.ofItems_group, Outline.ofItems_var, Outline.ofItems_not (by decide),
      Outline.ofItems_var]
    rfl
  have lenient : ofTokens [.var 'q', .operator .not, .leftParen, .var 'p', .rightParen] =
      .ok (.not (.var 'p')) := by
    have nested : Item.ofTokens [.var 'q', .operator .not, .leftParen, .var 'p', .rightParen] =
        .ok [.token (.var 'q'), .token (.operator .not), .group [.token (.var 'p')]] := by rfl
    have found : Split.ofItems?
        [.token (.var 'q'), .token (.operator .not), .group [.token (.var 'p')]] =
        some ⟨[.token (.var 'q')], .not, [.group [.token (.var 'p')]]⟩ := by rfl
    rw [ofTokens_eq nested, Outline.ofItems_of_not found rfl, Outline.ofItems_group,
      Outline.ofItems_var]
    rfl
  obtain ⟨kept, dropped⟩ := reading_and_writing_conserve_yield
  obtain ⟨fromText, written⟩ := kept _ _ strict
  exact ⟨strict, fromText, written, lenient, dropped _ _ lenient⟩

end Formula

end Sentential
