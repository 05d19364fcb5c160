import Sentential.Item.Part
import Sentential.Proofs.Nesting
import Sentential.Proofs.Reading

/-!
Strict and lenient reading agree. The strict one accepts a text exactly where the lenient one makes
a complete formula of it and no part that it comes to has anything before a main negation, and the
two find the same mismatched parentheses.
-/
namespace Sentential

namespace Item

variable {items part : List Item} {split : Split}

theorem mem_parts_self (items : List Item) : items ∈ parts items := by
  rw [parts]
  exact List.mem_cons_self

theorem mem_parts_of_isPart (inside : IsPart items part) : part ∈ parts items := by
  induction inside with
  | whole items => exact mem_parts_self items
  | before whole main connective _ ih =>
    rw [parts_of_binary (Split.ofItems?_eq_some_iff.mpr ⟨whole, main⟩) connective]
    simp [ih]
  | @after items part split whole main _ ih =>
    have found := Split.ofItems?_eq_some_iff.mpr ⟨whole, main⟩
    cases operator : split.operator with
    | not =>
      rw [parts_of_not found operator]
      simp [ih]
    | binary op =>
      rw [parts_of_binary found operator]
      simp [ih]
  | content _ ih =>
    rw [parts_group]
    simp [ih]

theorem isPart_of_mem_parts (member : part ∈ parts items) : IsPart items part := by
  induction items using Outline.induction with
  | not items split found negation ih =>
    rw [parts_of_not found negation] at member
    obtain ⟨whole, main⟩ := Split.ofItems?_eq_some_iff.mp found
    rcases List.mem_cons.mp member with rfl | member
    · exact .whole _
    · exact .after whole main (ih member)
  | binary items split op found connective ihl ihr =>
    rw [parts_of_binary found connective] at member
    obtain ⟨whole, main⟩ := Split.ofItems?_eq_some_iff.mp found
    rcases List.mem_cons.mp member with rfl | member
    · exact .whole _
    rcases List.mem_append.mp member with member | member
    · exact .before whole main connective (ihl member)
    · exact .after whole main (ihr member)
  | group content ih =>
    rw [parts_group] at member
    rcases List.mem_cons.mp member with rfl | member
    · exact .whole _
    · exact .content (ih member)
  | var name =>
    rw [parts_of_unsplit (Split.ofItems?_var name) (by simp)] at member
    obtain rfl := List.mem_singleton.mp member
    exact .whole _
  | paren t paren =>
    rw [parts_of_unsplit (Split.ofItems?_single (rank_of_paren paren)) (by simp)] at member
    obtain rfl := List.mem_singleton.mp member
    exact .whole _
  | vacant items unsplit several =>
    rw [parts_of_unsplit unsplit fun _ => several _] at member
    obtain rfl := List.mem_singleton.mp member
    exact .whole _

theorem hasSkipped_iff (found : Split.ofItems? items = some split) :
    HasSkipped items ↔ split.operator = .not ∧ split.before ≠ [] := by
  constructor
  · rintro ⟨other, whole, main, negation, skipped⟩
    obtain rfl := Split.eq_of_isMain found whole main
    exact ⟨negation, skipped⟩
  · rintro ⟨negation, skipped⟩
    obtain ⟨whole, main⟩ := Split.ofItems?_eq_some_iff.mp found
    exact ⟨split, whole, main, negation, skipped⟩

theorem not_hasSkipped_of_unsplit (unsplit : Split.ofItems? items = none) :
    ¬ HasSkipped items := by
  rintro ⟨split, whole, main, _⟩
  exact Split.not_isMain_of_unsplit unsplit whole main

theorem parts_clean_of_unsplit (unsplit : Split.ofItems? items = none)
    (notGroup : ∀ content, items ≠ [.group content]) :
    ∀ part ∈ parts items, ¬ HasSkipped part := by
  intro part member
  rw [parts_of_unsplit unsplit notGroup] at member
  obtain rfl := List.mem_singleton.mp member
  exact not_hasSkipped_of_unsplit unsplit

/-- An outline loses nothing exactly where none of the parts does. -/
theorem lossless_iff_parts :
    (Outline.ofItems items).Lossless ↔ ∀ part ∈ parts items, ¬ HasSkipped part := by
  induction items using Outline.induction with
  | not items split found negation ih =>
    rw [Outline.ofItems_of_not found negation, parts_of_not found negation, Outline.Lossless, ih]
    simp [hasSkipped_iff found, negation]
  | binary items split op found connective ihl ihr =>
    rw [Outline.ofItems_of_binary found connective, parts_of_binary found connective,
      Outline.Lossless, ihl, ihr]
    simp [hasSkipped_iff found, connective, or_imp, forall_and]
  | group content ih =>
    rw [Outline.ofItems_group, parts_group, Outline.Lossless, ih]
    simp [not_hasSkipped_of_unsplit (Split.ofItems?_group content)]
  | var name =>
    have clean := parts_clean_of_unsplit (Split.ofItems?_var name) (by simp)
    rw [Outline.ofItems_var]
    exact iff_of_true trivial clean
  | paren t paren =>
    have unsplit := Split.ofItems?_single (rank_of_paren paren)
    have clean := parts_clean_of_unsplit unsplit (by simp)
    rw [Outline.ofItems_paren paren]
    exact iff_of_true trivial clean
  | vacant items unsplit several =>
    have clean := parts_clean_of_unsplit unsplit (fun _ => several _)
    rw [Outline.ofItems_vacant unsplit several]
    exact iff_of_true trivial clean

theorem lossless_iff : (Outline.ofItems items).Lossless ↔
    ∀ part, IsPart items part → ¬ HasSkipped part := by
  rw [lossless_iff_parts]
  constructor
  · intro lossless part inside
    exact lossless part (mem_parts_of_isPart inside)
  · intro lossless part member
    exact lossless part (isPart_of_mem_parts member)

end Item

/-- The strict reading accepts what the lenient one completes with nothing skipped. -/
theorem strict_agrees_with_lenient (text : String) :
    (∀ e, Formula.read text = .ok e ↔
      Formula.ofTokens (Token.ofText text) = .ok e ∧ e ≠ .missing ∧ e.isComplete = true ∧
        ∃ items, Item.ofTokens (Token.ofText text) = .ok items ∧
          ∀ part, Item.IsPart items part → ¬ Item.HasSkipped part) ∧
    ∀ position, Formula.read text = .error (.mismatchedParenthesis position) ↔
      Formula.ofTokens (Token.ofText text) = .error (.mismatchedParenthesis position) := by
  cases nested : Item.ofTokens (Token.ofText text) with
  | error mismatch => simp [Formula.read_eq_error nested, Formula.ofTokens_eq_error nested]
  | ok items =>
    rw [Formula.read_eq nested, Formula.ofTokens_eq nested]
    constructor
    · intro e
      rw [Outline.read_strict_eq_ok_iff, Item.lossless_iff]
      constructor
      · rintro ⟨rfl, complete, lossless⟩
        refine ⟨rfl, ?_, complete, items, rfl, lossless⟩
        intro missing
        simp [missing] at complete
      · rintro ⟨lenient, _, complete, others, same, lossless⟩
        obtain rfl := Except.ok.inj same
        exact ⟨Except.ok.inj lenient, complete, lossless⟩
    · intro position
      constructor
      · intro failed
        have invalid := Outline.invalid_of_read_strict failed
        contradiction
      · intro failed
        contradiction

/-- A text that both readings accept, and one that the lenient reading alone accepts, since its first
variable would be lost. -/
theorem negation_accepted_unless_preceded :
    Formula.read "p ∧ ¬q" = .ok (.binary .and (.var 'p') (.not (.var 'q'))) ∧
    Formula.ofTokens (Token.ofText "p ∧ ¬q") = .ok (.binary .and (.var 'p') (.not (.var 'q'))) ∧
    Formula.ofTokens (Token.ofText "p ¬q") = .ok (.not (.var 'q')) ∧
    Formula.read "p ¬q" ≠ .ok (.not (.var 'q')) := by
  have nested : Item.ofTokens (Token.ofText "p ∧ ¬q") =
      .ok ([.token (.var 'p')] ++ .token (.operator (.binary .and)) ::
        [.token (.operator .not), .token (.var 'q')]) := by rfl
  have accepted : Formula.read "p ∧ ¬q" = .ok (.binary .and (.var 'p') (.not (.var 'q'))) := by
    rw [Formula.read_eq nested, Outline.ofItems_binary (by decide) (by decide),
      Outline.ofItems_var, Outline.ofItems_not (by decide), Outline.ofItems_var]
    rfl
  have preceded : Item.ofTokens (Token.ofText "p ¬q") =
      .ok [.token (.var 'p'), .token (.operator .not), .token (.var 'q')] := by rfl
  have found : Split.ofItems? [.token (.var 'p'), .token (.operator .not), .token (.var 'q')] =
      some ⟨[.token (.var 'p')], .not, [.token (.var 'q')]⟩ := by rfl
  have lenient : Formula.ofTokens (Token.ofText "p ¬q") = .ok (.not (.var 'q')) := by
    rw [Formula.ofTokens_eq preceded, Outline.ofItems_of_not found rfl, Outline.ofItems_var]
    rfl
  obtain ⟨agree, _⟩ := strict_agrees_with_lenient "p ∧ ¬q"
  obtain ⟨agreePreceded, _⟩ := strict_agrees_with_lenient "p ¬q"
  refine ⟨accepted, ((agree _).mp accepted).1, lenient, fun read => ?_⟩
  obtain ⟨_, _, _, items, matched, clean⟩ := (agreePreceded _).mp read
  obtain rfl := Except.ok.inj (preceded.symm.trans matched)
  obtain ⟨whole, main⟩ := Split.ofItems?_eq_some_iff.mp found
  exact clean _ (.whole _) ⟨_, whole, main, rfl, by simp⟩

end Sentential
