import Sentential.Proofs.Reading

/-!
The lenient reading by recursion. Though it goes on in one sweep and puts the formula together at
the end, it comes to what is said of each sequence in terms of shorter ones: a sequence with an
operator is its main connective put on the readings of what stands on either side of it, and one
without is its single group or variable, or no formula.
-/
namespace Sentential

variable {items : List Item} {i : Nat}

namespace Formula

theorem ofItems_of_not (main : IsMainAt items i .not) :
    ofItems items = .not (ofItems (items.drop (i + 1))) := by
  have found := Split.ofItems?_of_isMainAt main
  simp only [ofItems_eq, Outline.ofItems_of_not found rfl, Outline.formula]

theorem ofItems_of_binary {op : Connective} (main : IsMainAt items i (.binary op)) :
    ofItems items = .binary op (ofItems (items.take i)) (ofItems (items.drop (i + 1))) := by
  have found := Split.ofItems?_of_isMainAt main
  simp only [ofItems_eq, Outline.ofItems_of_binary found rfl, Outline.formula]

theorem ofItems_group (content : List Item) : ofItems [.group content] = ofItems content := by
  simp only [ofItems_eq, Outline.ofItems_group, Outline.formula]

theorem ofItems_var (name : Char) : ofItems [.token (.var name)] = .var name := by
  simp only [ofItems_eq, Outline.ofItems_var, Outline.formula]

theorem ofItems_paren {t : Token} (paren : t.isParen = true) : ofItems [.token t] = .missing := by
  simp only [ofItems_eq, Outline.ofItems_paren paren, Outline.formula]

theorem ofItems_of_several (unsplit : Split.ofItems? items = none)
    (several : ∀ item, items ≠ [item]) : ofItems items = .missing := by
  simp only [ofItems_eq, Outline.ofItems_vacant unsplit several, Outline.formula]

theorem ofItems_eq_missing (absent : ∀ op, .token (.operator op) ∉ items)
    (notGroup : ∀ content, items ≠ [.group content])
    (notVar : ∀ name, items ≠ [.token (.var name)]) : ofItems items = .missing := by
  by_cases single : ∃ item, items = [item]
  · obtain ⟨t | content, rfl⟩ := single
    · cases t with
      | var name => exact absurd rfl (notVar name)
      | operator op => exact absurd (List.mem_singleton_self _) (absent op)
      | leftParen | rightParen => exact ofItems_paren rfl
    · exact absurd rfl (notGroup content)
  · exact ofItems_of_several (Split.ofItems?_eq_none absent) fun item same => single ⟨item, same⟩

/-- The lenient reading of a sequence with operators takes the first of the loosest ones. A negation
has the reading of what follows it as its operand, whatever stands before it, and a connective with
two operands has those of either side. Without an operator, the reading of a group is that of its
content, a variable is read as itself, and of anything else no formula is made. Tokens are read as
the items that they are nested to. -/
theorem lenient_reading_by_recursion :
    (∀ items i,
      (IsMainAt items i .not → ofItems items = .not (ofItems (items.drop (i + 1)))) ∧
      ∀ op, IsMainAt items i (.binary op) →
        ofItems items = .binary op (ofItems (items.take i)) (ofItems (items.drop (i + 1)))) ∧
    (∀ items op, .token (.operator op) ∈ items → ∃ i op, IsMainAt items i op) ∧
    (∀ content, ofItems [.group content] = ofItems content) ∧
    (∀ name, ofItems [.token (.var name)] = .var name) ∧
    (∀ items, (∀ op, .token (.operator op) ∉ items) → (∀ content, items ≠ [.group content]) →
      (∀ name, items ≠ [.token (.var name)]) → ofItems items = .missing) ∧
    ∀ tokens, ofTokens tokens = (Item.ofTokens tokens).map ofItems := by
  refine ⟨fun items i => ⟨ofItems_of_not, fun op => ofItems_of_binary⟩,
    fun items op => Split.exists_isMainAt, ofItems_group, ofItems_var,
    fun items => ofItems_eq_missing, fun tokens => ?_⟩
  cases nested : Item.ofTokens tokens with
  | error mismatch => exact ofTokens_eq_error nested
  | ok items => rw [ofTokens_eq nested, Except.map, ofItems_eq]

/-- A parenthesis token that gives no operand, and a variable that a negation passes over. -/
theorem lone_parenthesis_and_skipped_variable :
    IsMainAt [.token .rightParen, .token (.operator (.binary .or)), .token (.var 'p'),
      .token (.operator .not), .group [.token (.var 'q')]] 1 (.binary .or) ∧
    ofItems [.token .rightParen, .token (.operator (.binary .or)), .token (.var 'p'),
      .token (.operator .not), .group [.token (.var 'q')]] =
        .binary .or .missing (.not (.var 'q')) := by
  have outer : Split.IsMain ⟨[.token .rightParen], .binary .or,
      [.token (.var 'p'), .token (.operator .not), .group [.token (.var 'q')]]⟩ :=
    ⟨by decide, by decide⟩
  have inner : Split.IsMain ⟨[.token (.var 'p')], .not, [.group [.token (.var 'q')]]⟩ :=
    ⟨by decide, by decide⟩
  obtain ⟨connectives, _, group, var, others, _⟩ := lenient_reading_by_recursion
  have parenthesis : ofItems [.token .rightParen] = .missing :=
    others _ (by simp) (by simp) (by simp)
  have content : ofItems [.group [.token (.var 'q')]] = .var 'q' := (group _).trans (var 'q')
  have negation : ofItems [.token (.var 'p'), .token (.operator .not),
      .group [.token (.var 'q')]] = .not (.var 'q') :=
    ((connectives _ _).1 inner.isMainAt).trans (congrArg Formula.not content)
  refine ⟨outer.isMainAt, ?_⟩
  calc ofItems [.token .rightParen, .token (.operator (.binary .or)), .token (.var 'p'),
        .token (.operator .not), .group [.token (.var 'q')]]
      = .binary .or (ofItems [.token .rightParen]) (ofItems [.token (.var 'p'),
          .token (.operator .not), .group [.token (.var 'q')]]) :=
        (connectives _ _).2 .or outer.isMainAt
    _ = .binary .or .missing (.not (.var 'q')) := by rw [parenthesis, negation]

end Formula

end Sentential
