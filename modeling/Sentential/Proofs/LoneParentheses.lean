import Mathlib.Order.Bounds.Defs
import Sentential.Proofs.Checks
import Sentential.Proofs.Strictness

/-!
Parenthesis tokens put among items by hand. A checked reading stops at the leftmost of those that
are a part by themselves, and if there is none it comes to what the reading without a check comes
to. A parenthesis that is in no part, or beside something else in a part, stops nothing.
-/
namespace Sentential

variable {items content part : List Item} {split : Split} {t : Token} {place : Nat}

namespace Item

theorem PartAt.isPart (located : PartAt items place part) : IsPart items part := by
  induction located with
  | whole items => exact .whole items
  | before whole main connective _ ih => exact .before whole main connective ih
  | after whole main _ ih => exact .after whole main ih
  | content _ ih => exact .content ih

theorem exists_partAt (inside : IsPart items part) : ∃ place, PartAt items place part := by
  induction inside with
  | whole items => exact ⟨0, .whole items⟩
  | before whole main connective _ ih =>
    obtain ⟨place, located⟩ := ih
    exact ⟨place, .before whole main connective located⟩
  | after whole main _ ih =>
    obtain ⟨place, located⟩ := ih
    exact ⟨_, .after whole main located⟩
  | content _ ih =>
    obtain ⟨place, located⟩ := ih
    exact ⟨_, .content located⟩

theorem exists_loneAt_iff :
    (∃ place, LoneAt items place) ↔ ∃ t : Token, t.isParen = true ∧ IsPart items [.token t] := by
  constructor
  · rintro ⟨place, t, paren, located⟩
    exact ⟨t, paren, located.isPart⟩
  · rintro ⟨t, paren, inside⟩
    obtain ⟨place, located⟩ := exists_partAt inside
    exact ⟨place, t, paren, located⟩

/-- The tokens of a part stand among all tokens, one after the other, from its place on. -/
theorem PartAt.segment (located : PartAt items place part) :
    ∃ before after, before.length = place ∧ flatten items = before ++ flatten part ++ after := by
  induction located with
  | whole items => exact ⟨[], [], rfl, by simp⟩
  | @before items part split op place whole main connective _ ih =>
    obtain ⟨before, after, rfl, tokens⟩ := ih
    refine ⟨before, after ++ .operator split.operator :: flatten split.after, rfl, ?_⟩
    rw [← whole, Split.flatten_items, tokens]
    simp
  | @after items part split place whole main _ ih =>
    obtain ⟨before, after, rfl, tokens⟩ := ih
    refine ⟨flatten split.before ++ .operator split.operator :: before, after, ?_, ?_⟩
    · rw [List.length_append, List.length_cons]
      omega
    · rw [← whole, Split.flatten_items, tokens]
      simp
  | @content content part place _ ih =>
    obtain ⟨before, after, rfl, tokens⟩ := ih
    refine ⟨.leftParen :: before, after ++ [.rightParen], Nat.add_comm _ _, ?_⟩
    rw [flatten_group, tokens]
    simp

theorem PartAt.getElem? (located : PartAt items place [.token t]) :
    (flatten items)[place]? = some t := by
  obtain ⟨before, after, rfl, tokens⟩ := located.segment
  simp [tokens, flatten, flattenOne]

theorem LoneAt.lt_length (lone : LoneAt items place) : place < (flatten items).length := by
  obtain ⟨t, -, located⟩ := lone
  exact (List.getElem?_eq_some_iff.mp located.getElem?).1

theorem loneAt_of_split (found : Split.ofItems? items = some split) :
    LoneAt items place ↔
      (split.operator ≠ .not ∧ LoneAt split.before place) ∨
        ∃ inside, LoneAt split.after inside ∧
          (flatten split.before).length + 1 + inside = place := by
  constructor
  · rintro ⟨t, paren, located⟩
    cases located with
    | whole => simp [Split.ofItems?_single (rank_of_paren paren)] at found
    | before whole main connective located =>
      obtain rfl := Split.eq_of_isMain found whole main
      exact .inl ⟨by simp [connective], t, paren, located⟩
    | after whole main located =>
      obtain rfl := Split.eq_of_isMain found whole main
      exact .inr ⟨_, ⟨t, paren, located⟩, rfl⟩
    | @content content => simp [Split.ofItems?_group content] at found
  · obtain ⟨whole, main⟩ := Split.ofItems?_eq_some_iff.mp found
    rintro (⟨present, t, paren, located⟩ | ⟨inside, ⟨t, paren, located⟩, rfl⟩)
    · cases connective : split.operator with
      | not => contradiction
      | binary op => exact ⟨t, paren, .before whole main connective located⟩
    · exact ⟨t, paren, .after whole main located⟩

theorem loneAt_group_iff :
    LoneAt [.group content] place ↔ ∃ inside, LoneAt content inside ∧ 1 + inside = place := by
  constructor
  · rintro ⟨t, paren, located⟩
    cases located with
    | before whole main _ _ | after whole main _ =>
      exact absurd main (Split.not_isMain_of_unsplit (Split.ofItems?_group content) whole)
    | content located => exact ⟨_, ⟨t, paren, located⟩, rfl⟩
  · rintro ⟨inside, ⟨t, paren, located⟩, rfl⟩
    exact ⟨t, paren, .content located⟩

/-- Where there is no main connective and no group, there is only the sequence itself. -/
theorem loneAt_of_unsplit (unsplit : Split.ofItems? items = none)
    (notGroup : ∀ content, items ≠ [.group content]) :
    LoneAt items place ↔ place = 0 ∧ ∃ t : Token, t.isParen = true ∧ items = [.token t] := by
  constructor
  · rintro ⟨t, paren, located⟩
    cases located with
    | whole => exact ⟨rfl, t, paren, rfl⟩
    | before whole main _ _ | after whole main _ =>
      exact absurd main (Split.not_isMain_of_unsplit unsplit whole)
    | content => exact absurd rfl (notGroup _)
  · rintro ⟨rfl, t, paren, rfl⟩
    exact ⟨t, paren, .whole _⟩

theorem not_loneAt_var (name : Char) (place : Nat) : ¬ LoneAt [.token (.var name)] place := by
  intro lone
  obtain ⟨-, t, paren, same⟩ :=
    (loneAt_of_unsplit (Split.ofItems?_var name) (by simp)).mp lone
  obtain rfl : .var name = t := by simpa using same
  contradiction

/-- The token is the leftmost of the parentheses that are parts by themselves, if there are any. -/
def FirstLone (items : List Item) : Option Token → Prop
  | none => ∀ place, ¬ LoneAt items place
  | some t => ∃ place, IsLeast {p | LoneAt items p} place ∧ (flatten items)[place]? = some t

/-- Where all lone parentheses are within some of the items, so is the first one. -/
theorem FirstLone.within {first? : Option Token} {before after : List Token}
    (first : FirstLone content first?) (tokens : flatten items = before ++ flatten content ++ after)
    (places : ∀ place, LoneAt items place ↔
      ∃ inside, LoneAt content inside ∧ before.length + inside = place) :
    FirstLone items first? := by
  cases first? with
  | none =>
    intro place lone
    obtain ⟨inside, lone, -⟩ := (places place).mp lone
    exact first inside lone
  | some t =>
    obtain ⟨inside, ⟨lone, least⟩, token⟩ := first
    refine ⟨before.length + inside, ⟨(places _).mpr ⟨inside, lone, rfl⟩, ?_⟩, ?_⟩
    · intro place member
      obtain ⟨other, loneOther, rfl⟩ := (places place).mp member
      exact Nat.add_le_add_left (least loneOther) _
    · have here : inside < (flatten content).length := lone.lt_length
      rw [tokens, List.append_assoc, List.getElem?_append_right (Nat.le_add_right _ _),
        Nat.add_sub_cancel_left, List.getElem?_append_left here, token]

/-- What comes first in the left operand comes before all that is in the right one. -/
theorem FirstLone.of_left (found : Split.ofItems? items = some split)
    (notNegation : split.operator ≠ .not) (first : FirstLone split.before (some t)) :
    FirstLone items (some t) := by
  obtain ⟨place, ⟨lone, least⟩, token⟩ := first
  have within := lone.lt_length
  refine ⟨place, ⟨(loneAt_of_split found).mpr (.inl ⟨notNegation, lone⟩), ?_⟩, ?_⟩
  · intro other member
    rcases (loneAt_of_split found).mp member with ⟨-, left⟩ | ⟨inside, -, rfl⟩
    · exact least left
    · omega
  · rw [← Split.items_of_ofItems? found, Split.flatten_items, List.getElem?_append_left within,
      token]

/-- With no lone parenthesis before the main connective that would count, the first one is in its
last operand. -/
theorem FirstLone.of_right {first? : Option Token} (found : Split.ofItems? items = some split)
    (none : ∀ place, ¬ (split.operator ≠ .not ∧ LoneAt split.before place))
    (first : FirstLone split.after first?) : FirstLone items first? := by
  have tokens : flatten items =
      (flatten split.before ++ [.operator split.operator]) ++ flatten split.after ++ [] := by
    rw [← Split.items_of_ofItems? found, Split.flatten_items]
    simp
  apply first.within tokens
  intro place
  rw [loneAt_of_split found, or_iff_right (none place)]
  simp

theorem firstLone (items : List Item) : FirstLone items (Outline.ofItems items).lones.head? := by
  induction items using Outline.induction with
  | not items split found negation ih =>
    rw [Outline.ofItems_of_not found negation, Outline.lones]
    exact ih.of_right found fun _ skipped => skipped.1 negation
  | binary items split op found connective ihl ihr =>
    rw [Outline.ofItems_of_binary found connective, Outline.lones, List.head?_append]
    cases left : (Outline.ofItems split.before).lones.head? with
    | none =>
      rw [left] at ihl
      exact ihr.of_right found fun place lone => ihl place lone.2
    | some t =>
      rw [left] at ihl
      exact ihl.of_left found (by simp [connective])
  | group content ih =>
    rw [Outline.ofItems_group, Outline.lones]
    have tokens : flatten [.group content] = [.leftParen] ++ flatten content ++ [.rightParen] :=
      flatten_group content
    exact ih.within tokens fun place => loneAt_group_iff
  | var name =>
    rw [Outline.ofItems_var]
    exact not_loneAt_var name
  | paren t paren =>
    rw [Outline.ofItems_paren paren]
    refine ⟨0, ⟨⟨t, paren, .whole _⟩, fun place _ => Nat.zero_le place⟩, rfl⟩
  | vacant items unsplit several =>
    rw [Outline.ofItems_vacant unsplit several]
    intro place lone
    obtain ⟨-, t, -, rfl⟩ := (loneAt_of_unsplit unsplit fun _ => several _).mp lone
    exact several _ rfl

end Item

namespace Outline

/-- A lenient reading has nothing to stop at but a parenthesis by itself. -/
theorem read_refuseLone_lenient (outline : Outline) :
    outline.read (Checked.refuseLone .lenient) =
      match outline.lones.head? with
      | some t => .error (.inl (.loneParenthesis t))
      | none => .ok outline.formula := by
  induction outline with
  | vacant | var | lone => rfl
  | group content ih => exact ih
  | not skipped operand ih =>
    have skip : (Checked.refuseLone .lenient).skip skipped = .ok () := rfl
    rw [read, lones, skip, ih]
    cases operand.lones.head? <;> rfl
  | binary op left right ihl ihr =>
    rw [read, lones, ihl, ihr, List.head?_append]
    cases left.lones.head? with
    | some t => rfl
    | none => cases right.lones.head? <;> rfl

end Outline

namespace Checked

theorem ofItems_eq (items : List Item) :
    ofItems items =
      match (Outline.ofItems items).lones.head? with
      | some t => .error (.loneParenthesis t)
      | none => .ok (Formula.ofItems items) := by
  rw [ofItems, readItems, Manner.read_nil, Outline.read_refuseLone_lenient, Formula.ofItems_eq]
  cases (Outline.ofItems items).lones.head? <;> rfl

/-- A checked reading either names the first lone parenthesis or ends as if it made no check. -/
theorem ofItems_outcome (items : List Item) :
    (∃ place t, IsLeast {p | Item.LoneAt items p} place ∧ (Item.flatten items)[place]? = some t ∧
      ofItems items = .error (.loneParenthesis t)) ∨
    ((∀ place, ¬ Item.LoneAt items place) ∧ ofItems items = .ok (Formula.ofItems items)) := by
  have first := Item.firstLone items
  have outcome := ofItems_eq items
  cases found : (Outline.ofItems items).lones.head? with
  | none =>
    simp only [found] at first outcome
    exact .inr ⟨first, outcome⟩
  | some t =>
    simp only [found] at first outcome
    obtain ⟨place, least, token⟩ := first
    exact .inl ⟨place, t, least, token, outcome⟩

theorem ofItems_eq_error_iff {misuse : Misuse} :
    ofItems items = .error misuse ↔
      ∃ place t, IsLeast {p | Item.LoneAt items p} place ∧
        (Item.flatten items)[place]? = some t ∧ misuse = .loneParenthesis t := by
  rcases ofItems_outcome items with ⟨place, t, least, token, stopped⟩ | ⟨none, passed⟩
  · constructor
    · intro failed
      exact ⟨place, t, least, token, Except.error.inj (failed.symm.trans stopped)⟩
    · rintro ⟨other, u, leastOther, tokenOther, rfl⟩
      obtain rfl := Nat.le_antisymm (least.2 leastOther.1) (leastOther.2 least.1)
      obtain rfl := Option.some.inj (token.symm.trans tokenOther)
      exact stopped
  · constructor
    · intro failed
      have contrary := passed.symm.trans failed
      contradiction
    · rintro ⟨place, t, ⟨lone, -⟩, -⟩
      exact absurd lone (none place)

/-- Whatever stands before a main negation has no part in how the reading ends. -/
theorem ofItems_of_not (main : split.IsMain) (negation : split.operator = .not) :
    ofItems split.items = (ofItems split.after).map .not := by
  have found := Split.ofItems?_items main
  rw [ofItems_eq, ofItems_eq, Formula.ofItems_eq, Formula.ofItems_eq,
    Outline.ofItems_of_not found negation, Outline.lones, Outline.formula]
  cases (Outline.ofItems split.after).lones.head? <;> rfl

theorem ofItems_of_vacant (absent : ∀ op, .token (.operator op) ∉ items)
    (several : ∀ item, items ≠ [item]) : ofItems items = .ok .missing := by
  have vacant := Outline.ofItems_vacant (Split.ofItems?_eq_none absent) several
  rw [ofItems_eq, Formula.ofItems_eq, vacant]
  rfl

/-- A checked reading of items is stopped just where a parenthesis token is a part of them by
itself, and it names the leftmost one. Else it comes to the formula that the reading without the
check comes to. What stands before a main negation, or among several items without a connective,
stops nothing. Nor is a reading ever stopped for want of an operator: where the search for a main
connective settles there is one, and the items are taken apart at it. -/
theorem stopped_at_leftmost_lone_parenthesis :
    (∀ items : List Item,
      ((∃ misuse, ofItems items = .error misuse) ↔
        ∃ t : Token, t.isParen = true ∧ Item.IsPart items [.token t]) ∧
      (∀ misuse, ofItems items = .error misuse ↔
        ∃ place t, IsLeast {p | Item.LoneAt items p} place ∧
          (Item.flatten items)[place]? = some t ∧ misuse = .loneParenthesis t) ∧
      ((∀ t : Token, t.isParen = true → ¬ Item.IsPart items [.token t]) →
        ofItems items = .ok (Formula.ofItems items))) ∧
    (∀ split : Split, split.IsMain → split.operator = .not →
      ofItems split.items = (ofItems split.after).map .not) ∧
    (∀ items : List Item, (∀ op, .token (.operator op) ∉ items) → (∀ item, items ≠ [item]) →
      ofItems items = .ok .missing) ∧
    ∀ items i, mainConnective? items = some i → ∃ op,
      items[i]? = some (.token (.operator op)) ∧
        Split.ofItems? items = some ⟨items.take i, op, items.drop (i + 1)⟩ := by
  refine ⟨fun items => ⟨?_, fun misuse => ofItems_eq_error_iff, ?_⟩,
    fun split => ofItems_of_not, fun items => ofItems_of_vacant,
    fun items i => Split.ofItems?_of_mainConnective?⟩
  · rw [← Item.exists_loneAt_iff]
    constructor
    · rintro ⟨misuse, stopped⟩
      obtain ⟨place, t, ⟨lone, -⟩, -⟩ := ofItems_eq_error_iff.mp stopped
      exact ⟨place, lone⟩
    · rintro ⟨place, lone⟩
      rcases ofItems_outcome items with ⟨_, t, _, _, stopped⟩ | ⟨none, -⟩
      · exact ⟨_, stopped⟩
      · exact absurd lone (none place)
  · intro clean
    rcases ofItems_outcome items with ⟨place, _, ⟨lone, -⟩, -⟩ | ⟨-, passed⟩
    · obtain ⟨t, paren, inside⟩ := Item.exists_loneAt_iff.mp ⟨place, lone⟩
      exact absurd inside (clean t paren)
    · exact passed

/-- Of three parenthesis tokens the first is passed over and the second is named. -/
theorem second_of_three_parentheses_named :
    IsLeast {p | Item.LoneAt [.token .leftParen, .token (.operator .not),
      .group [.token .rightParen, .token (.operator (.binary .and)), .token .leftParen]] p} 3 ∧
    ofItems [.token .leftParen, .token (.operator .not),
      .group [.token .rightParen, .token (.operator (.binary .and)), .token .leftParen]] =
        .error (.loneParenthesis .rightParen) ∧
    ofItems [.token .leftParen, .token (.operator .not), .token (.var 'p')] =
      .ok (.not (.var 'p')) ∧
    ofItems [.token (.var 'p'), .token .rightParen] = .ok .missing ∧
    mainConnective? [.token .leftParen, .token (.operator .not),
      .group [.token .rightParen, .token (.operator (.binary .and)), .token .leftParen]] =
        some 1 := by
  obtain ⟨readings, negation, vacant, apart⟩ := stopped_at_leftmost_lone_parenthesis
  have settled : mainConnective? [.token .leftParen, .token (.operator .not),
      .group [.token .rightParen, .token (.operator (.binary .and)), .token .leftParen]] =
        some 1 := by
    rfl
  have outer : Split.ofItems? [.token .leftParen, .token (.operator .not),
      .group [.token .rightParen, .token (.operator (.binary .and)), .token .leftParen]] =
      some ⟨[.token .leftParen], .not,
        [.group [.token .rightParen, .token (.operator (.binary .and)), .token .leftParen]]⟩ := by
    obtain ⟨op, here, found⟩ := apart _ _ settled
    obtain rfl : op = .not := by simpa using here.symm
    exact found
  have inner : Split.ofItems? [.token .rightParen, .token (.operator (.binary .and)),
      .token .leftParen] = some ⟨[.token .rightParen], .binary .and, [.token .leftParen]⟩ := by
    rfl
  have lone (t : Token) (paren : t.isParen = true) (p : Nat) :
      Item.LoneAt [.token t] p ↔ p = 0 := by
    rw [Item.loneAt_of_unsplit (Split.ofItems?_single (Item.rank_of_paren paren)) (by simp)]
    simp [paren]
  have places (p : Nat) : Item.LoneAt [.token .leftParen, .token (.operator .not),
      .group [.token .rightParen, .token (.operator (.binary .and)), .token .leftParen]] p ↔
      3 = p ∨ 5 = p := by
    simp [Item.loneAt_of_split outer, Item.loneAt_of_split inner, Item.loneAt_group_iff,
      lone .leftParen rfl, lone .rightParen rfl, Item.flatten, Item.flattenOne]
  have least : IsLeast {p | Item.LoneAt [.token .leftParen, .token (.operator .not),
      .group [.token .rightParen, .token (.operator (.binary .and)), .token .leftParen]] p} 3 := by
    refine ⟨(places 3).mpr (.inl rfl), fun p member => ?_⟩
    have place := (places p).mp member
    omega
  have clean : ∀ t : Token, t.isParen = true →
      ¬ Item.IsPart [.token (.var 'p')] [.token t] := by
    intro t paren inside
    obtain ⟨place, lone⟩ := Item.exists_loneAt_iff.mpr ⟨t, paren, inside⟩
    exact Item.not_loneAt_var 'p' place lone
  have main : Split.IsMain ⟨[.token .leftParen], .not, [.token (.var 'p')]⟩ :=
    ⟨by decide, by decide⟩
  have operand : ofItems [.token (.var 'p')] = .ok (.var 'p') := by
    rw [(readings _).2.2 clean, Formula.ofItems_eq, Outline.ofItems_var]
    rfl
  have skipped : ofItems [.token .leftParen, .token (.operator .not), .token (.var 'p')] =
      (ofItems [.token (.var 'p')]).map .not := negation _ main rfl
  refine ⟨least, ((readings _).2.1 _).mpr ⟨3, .rightParen, least, rfl, rfl⟩, ?_,
    vacant _ (by simp) (by simp), settled⟩
  rw [skipped, operand]
  rfl

end Checked

end Sentential
