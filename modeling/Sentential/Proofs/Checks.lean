import Sentential.Checked
import Sentential.Proofs.Balance
import Sentential.Proofs.Names

/-!
Checked operations in regular use. Matching parentheses leaves none as a token, at any depth, and a
reading only ever comes to parts of what was nested, so it never finds a parenthesis by itself. The
names of a formula are distinct, so its own table never repeats one. With their checks passed, the
operations give what they give without.
-/
namespace Sentential

variable {ε : Type} {items : List Item} {names : List Char}

namespace Outline

/-- The parentheses that stand by themselves, in the order in which a reading comes to them. -/
def lones : Outline → List Token
  | .vacant | .var _ => []
  | .lone t => [t]
  | .group content => content.lones
  | .not _ operand => operand.lones
  | .binary _ left right => left.lones ++ right.lones

theorem lones_of_parenFree (clean : Item.ParenFree items) : (ofItems items).lones = [] := by
  induction items using Outline.induction with
  | not items split found negation ih =>
    rw [← Split.items_of_ofItems? found] at clean
    obtain ⟨_, _, cleanAfter⟩ := Item.parenFree_append.mp clean
    rw [ofItems_of_not found negation, lones, ih cleanAfter]
  | binary items split op found connective ihl ihr =>
    rw [← Split.items_of_ofItems? found] at clean
    obtain ⟨cleanBefore, _, cleanAfter⟩ := Item.parenFree_append.mp clean
    rw [ofItems_of_binary found connective, lones, ihl cleanBefore, ihr cleanAfter]
    rfl
  | group content ih =>
    rw [ofItems_group, lones, ih clean.1]
  | var name =>
    rw [ofItems_var, lones]
  | paren t paren =>
    have plain : t.isParen = false := clean.1
    simp [plain] at paren
  | vacant items unsplit several =>
    rw [ofItems_vacant unsplit several, lones]

/-- A reading that refuses parentheses by themselves goes on as it would without, until it comes to
one. -/
theorem read_refuseLone (manner : Manner ε) {outline : Outline} (absent : outline.lones = []) :
    outline.read (Checked.refuseLone manner) = (outline.read manner).mapError .inr := by
  induction outline with
  | vacant =>
    rw [read, read, Checked.refuseLone]
    cases manner.gap <;> rfl
  | var name => rfl
  | lone t => contradiction
  | group content ih => exact ih absent
  | not skipped operand ih =>
    have skip : (Checked.refuseLone manner).skip skipped =
        (manner.skip skipped).mapError .inr := rfl
    rw [read, read, ih absent, skip]
    cases manner.skip skipped with
    | error => rfl
    | ok => cases operand.read manner <;> rfl
  | binary op left right ihl ihr =>
    obtain ⟨absentLeft, absentRight⟩ := List.append_eq_nil_iff.mp absent
    rw [read, read, ihl absentLeft, ihr absentRight]
    cases left.read manner with
    | error => rfl
    | ok l => cases right.read manner <;> rfl

end Outline

namespace Checked

theorem firstRepeated?_eq_none_iff : firstRepeated? names = none ↔ names.Nodup := by
  induction names with
  | nil => simp [firstRepeated?]
  | cons name names ih =>
    rw [firstRepeated?, List.nodup_cons]
    by_cases repeated : name ∈ names
    · simp [repeated]
    · simp [repeated, ih]

theorem readItems_of_parenFree (manner : Manner ε) (clean : Item.ParenFree items) :
    readItems manner items = .ok (manner.read [] items) := by
  rw [readItems, Manner.read_nil, Outline.read_refuseLone manner (Outline.lones_of_parenFree clean),
    Manner.read_nil]
  cases (Outline.ofItems items).read manner <;> rfl

theorem ofItems_of_parenFree (clean : Item.ParenFree items) :
    ofItems items = .ok (Formula.ofItems items) := by
  rw [ofItems, readItems_of_parenFree .lenient clean]
  rfl

theorem ofTokens_eq (tokens : List Token) : ofTokens tokens = .ok (Formula.ofTokens tokens) := by
  rw [ofTokens, Formula.ofTokens]
  cases nested : Item.ofTokens tokens with
  | error mismatch => rfl
  | ok items =>
    simp only [ofItems_of_parenFree (Item.parenFree_of_ofTokens nested)]
    rfl

theorem read_eq (text : String) : read text = .ok (Formula.read text) := by
  rw [read, Formula.read]
  cases nested : Item.ofTokens (Token.ofText text) with
  | error mismatch => rfl
  | ok items => exact readItems_of_parenFree .strict (Item.parenFree_of_ofTokens nested)

theorem refuseRepeats_of_nodup (distinct : names.Nodup) : refuseRepeats names = .ok () := by
  simp only [refuseRepeats, firstRepeated?_eq_none_iff.mpr distinct]

theorem enumeration_of_nodup (distinct : names.Nodup) :
    enumeration names = .ok (.ofNames names) := by
  simp only [enumeration, refuseRepeats_of_nodup distinct]
  rfl

theorem tableOver_of_nodup (distinct : names.Nodup) (e : Formula) :
    tableOver e names = .ok (TruthTable.ofFormula e names) := by
  simp only [tableOver, refuseRepeats_of_nodup distinct]
  rfl

theorem truthTable_eq (e : Formula) : truthTable e = .ok e.truthTable :=
  tableOver_of_nodup e.nodup_names e

/-- No check ever stops what starts from a text, from tokens, from items that tokens were nested to,
or from any formula with the table over its own variables, and the answer is the one that the
operation gives without its check. Neither does a reading ever break off for want of an operator:
where the search for a main connective settles there is one, and the items are taken apart at it. -/
theorem regular_use_passes_checks :
    (∀ text, read text = .ok (Formula.read text)) ∧
    (∀ tokens, ofTokens tokens = .ok (Formula.ofTokens tokens)) ∧
    (∀ tokens items, Item.ofTokens tokens = .ok items →
      ofItems items = .ok (Formula.ofItems items)) ∧
    (∀ e : Formula, truthTable e = .ok e.truthTable ∧ isTautology e = .ok e.isTautology ∧
      isSatisfiable e = .ok e.isSatisfiable) ∧
    ∀ items i, mainConnective? items = some i → ∃ op,
      items[i]? = some (.token (.operator op)) ∧
        Split.ofItems? items = some ⟨items.take i, op, items.drop (i + 1)⟩ := by
  refine ⟨read_eq, ofTokens_eq, ?_, fun e => ⟨truthTable_eq e, ?_, ?_⟩,
    fun items i => Split.ofItems?_of_mainConnective?⟩
  · intro tokens items nested
    exact ofItems_of_parenFree (Item.parenFree_of_ofTokens nested)
  · rw [isTautology, truthTable_eq]
    rfl
  · rw [isSatisfiable, truthTable_eq]
    rfl

theorem gap_in_parentheses_passes_checks :
    Item.ofTokens [.var 'q', .operator .not, .leftParen, .rightParen] =
      .ok [.token (.var 'q'), .token (.operator .not), .group []] ∧
    ofItems [.token (.var 'q'), .token (.operator .not), .group []] = .ok (.not .missing) ∧
    mainConnective? [.token (.var 'q'), .token (.operator .not), .group []] = some 1 ∧
    Split.ofItems? [.token (.var 'q'), .token (.operator .not), .group []] =
      some ⟨[.token (.var 'q')], .not, [.group []]⟩ := by
  have nested : Item.ofTokens [.var 'q', .operator .not, .leftParen, .rightParen] =
      .ok [.token (.var 'q'), .token (.operator .not), .group []] := by rfl
  have settled : mainConnective? [.token (.var 'q'), .token (.operator .not), .group []] =
      some 1 := by rfl
  obtain ⟨_, _, unchanged, _, apart⟩ := regular_use_passes_checks
  have found : Split.ofItems? [.token (.var 'q'), .token (.operator .not), .group []] =
      some ⟨[.token (.var 'q')], .not, [.group []]⟩ := by
    obtain ⟨op, here, found⟩ := apart _ _ settled
    obtain rfl : op = .not := by simpa using here.symm
    exact found
  have lenient : Formula.ofItems [.token (.var 'q'), .token (.operator .not), .group []] =
      .not .missing := by
    rw [Formula.ofItems_eq, Outline.ofItems_of_not found rfl, Outline.ofItems_group,
      Outline.ofItems_nil]
    rfl
  exact ⟨nested, lenient ▸ unchanged _ _ nested, settled, found⟩

end Checked

end Sentential
