import Sentential.Formula.Yield
import Sentential.Proofs.Nesting
import Sentential.Proofs.Reading

/-!
What a reading keeps of its input. The variables and operators of a formula are among the tokens
that it is read from, in the same order. A lenient reading may lose some of them and adds none. A
strict reading keeps them all, and leaves out the parentheses alone.
-/
namespace Sentential

theorem Formula.var_mem_yield_iff {e : Formula} {name : Char} :
    .var name ∈ e.yield ↔ name ∈ e.occurrences := by
  induction e with
  | missing => simp [yield, occurrences]
  | var other => simp [yield, occurrences]
  | not operand ih => simp [yield, occurrences, ih]
  | binary op left right ihl ihr => simp [yield, occurrences, ihl, ihr]

theorem Outline.yield_sublist (items : List Item) :
    (ofItems items).formula.yield.Sublist (Item.flatten items) := by
  induction items using Outline.induction with
  | not items split found negation ih =>
    rw [ofItems_of_not found negation, ← Split.items_of_ofItems? found, Split.flatten_items,
      negation]
    exact (ih.cons_cons _).trans (List.sublist_append_right _ _)
  | binary items split op found connective ihl ihr =>
    rw [ofItems_of_binary found connective, ← Split.items_of_ofItems? found, Split.flatten_items,
      connective]
    exact ihl.append (ihr.cons_cons _)
  | group content ih =>
    rw [ofItems_group, Item.flatten_group]
    exact (ih.trans (List.sublist_append_left _ _)).cons _
  | var name =>
    rw [ofItems_var]
    exact List.Sublist.refl _
  | paren t paren =>
    rw [ofItems_paren paren]
    exact List.nil_sublist _
  | vacant items unsplit several =>
    rw [ofItems_vacant unsplit several]
    exact List.nil_sublist _

theorem Outline.yield_of_read_strict {items : List Item} {e : Formula}
    (read : (ofItems items).read .strict = .ok e) :
    e.yield = (Item.flatten items).filter (!·.isParen) := by
  induction items using Outline.induction generalizing e with
  | not items split found negation ih =>
    rw [ofItems_of_not found negation] at read
    obtain ⟨nothing, f, readOperand, rfl⟩ := read_strict_not_eq_ok_iff.mp read
    rw [← Split.items_of_ofItems? found, Split.flatten_items, nothing, negation, Formula.yield,
      ih readOperand]
    rfl
  | binary items split op found connective ihl ihr =>
    rw [ofItems_of_binary found connective] at read
    obtain ⟨l, r, readLeft, readRight, rfl⟩ := read_strict_binary_eq_ok_iff.mp read
    rw [← Split.items_of_ofItems? found, Split.flatten_items, connective, Formula.yield,
      ihl readLeft, ihr readRight, List.filter_append]
    rfl
  | group content ih =>
    rw [ofItems_group] at read
    rw [ih read, Item.flatten_group]
    simp [Token.isParen]
  | var name =>
    rw [ofItems_var] at read
    obtain rfl := Except.ok.inj read
    rfl
  | paren t paren =>
    rw [ofItems_paren paren] at read
    contradiction
  | vacant items unsplit several =>
    rw [ofItems_vacant unsplit several] at read
    contradiction

namespace Formula

variable {text : String} {tokens : List Token} {e : Formula}

theorem yield_of_read (accepted : read text = .ok e) :
    e.yield = (Token.ofText text).filter (!·.isParen) := by
  obtain ⟨items, nested, strict⟩ := exists_items_of_read accepted
  rw [Outline.yield_of_read_strict strict, Item.flatten_of_ofTokens nested]

theorem yield_sublist_of_ofTokens (read : ofTokens tokens = .ok e) : e.yield.Sublist tokens := by
  obtain ⟨items, nested, rfl⟩ := exists_items_of_ofTokens read
  rw [← Item.flatten_of_ofTokens nested]
  exact Outline.yield_sublist items

end Formula

end Sentential
