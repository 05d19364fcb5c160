import Sentential.MainConnective

/-!
The main connective is a leftmost maximum: it holds its operands looser than every operator before
it and at least as loose as every operator after it. A sequence is taken apart wherever it has an
operator at all, at the place of the first of the loosest. So a negation is taken only where there
is nothing looser, and what stands inside groups makes no difference.
-/
namespace Sentential

variable {items : List Item} {split : Split} {bound i : Nat} {op : Operator}

/-- The operator at `i` is the first of those of the sequence that hold their operands loosest. -/
def IsMainAt (items : List Item) (i : Nat) (op : Operator) : Prop :=
  items[i]? = some (.token (.operator op)) ∧
    ∀ j other, items[j]? = some (.token (.operator other)) →
      other.precedence ≤ op.precedence ∧ (other.precedence = op.precedence → i ≤ j)

theorem isMainAt_iff : IsMainAt items i op ↔
    items[i]? = some (.token (.operator op)) ∧
    (∀ j other, j < i → items[j]? = some (.token (.operator other)) →
      other.precedence < op.precedence) ∧
    ∀ j other, i < j → items[j]? = some (.token (.operator other)) →
      other.precedence ≤ op.precedence := by
  constructor
  · rintro ⟨here, loosest⟩
    refine ⟨here, fun j other earlier stands => ?_, fun j other _ stands => ?_⟩
    · obtain ⟨notAbove, first⟩ := loosest j other stands
      exact Nat.lt_of_le_of_ne notAbove fun same => Nat.not_le.mpr earlier (first same)
    · exact (loosest j other stands).1
  · rintro ⟨here, before, after⟩
    refine ⟨here, fun j other stands => ?_⟩
    rcases Nat.lt_trichotomy j i with earlier | rfl | later
    · have tighter := before j other earlier stands
      exact ⟨Nat.le_of_lt tighter, fun same => absurd same (Nat.ne_of_lt tighter)⟩
    · obtain rfl : op = other := by simpa [here] using stands
      exact ⟨Nat.le_refl _, fun _ => Nat.le_refl _⟩
    · exact ⟨after j other later stands, fun _ => Nat.le_of_lt later⟩

namespace Item

theorem rank_of_paren {t : Token} (paren : t.isParen = true) : (token t).rank = 0 := by
  cases t with
  | var | operator => contradiction
  | leftParen | rightParen => rfl

theorem precedence?_eq_some {item : Item} {precedence : Nat}
    (found : item.precedence? = some precedence) :
    ∃ op, item = .token (.operator op) ∧ op.precedence = precedence := by
  cases item with
  | group => contradiction
  | token t =>
    cases t with
    | operator op => exact ⟨op, rfl, Option.some.inj found⟩
    | var | leftParen | rightParen => contradiction

theorem rank_cases (item : Item) :
    item.rank = 0 ∨ ∃ op : Operator, item = .token (.operator op) := by
  cases found : item.precedence? with
  | none => exact .inl (by simp only [Item.rank, found, Option.getD_none])
  | some precedence =>
    obtain ⟨op, rfl, -⟩ := Item.precedence?_eq_some found
    exact .inr ⟨op, rfl⟩

theorem unranked_of_absent (absent : ∀ op, .token (.operator op) ∉ items) :
    ∀ item ∈ items, item.rank = 0 := by
  intro item member
  rcases item.rank_cases with zero | ⟨op, rfl⟩
  · exact zero
  · exact absurd member (absent op)

/-- The item with nothing left inside, if it is a group. -/
def emptied : Item → Item
  | .token t => .token t
  | .group _ => .group []

theorem rank_emptied (item : Item) : item.emptied.rank = item.rank := by
  cases item <;> rfl

end Item

namespace Candidate

/-- The precedence of a candidate, or zero for none. -/
def best (main? : Option Candidate) : Nat :=
  (main?.map (·.precedence)).getD 0

/-- What an item does depends on its rank alone. -/
theorem next?_eq (main? : Option Candidate) (index : Nat) (item : Item) :
    next? main? index item =
      if best main? < item.rank then some ⟨index, item.rank⟩ else main? := by
  cases found : item.precedence? with
  | none => simp [next?, Item.rank, found]
  | some precedence =>
    obtain ⟨op, -, rfl⟩ := Item.precedence?_eq_some found
    have positive := op.precedence_pos
    cases main? <;> simp [next?, best, Item.rank, found, positive]

theorem search?_append (main? : Option Candidate) (index : Nat) (before after : List Item) :
    search? main? index (before ++ after) =
      search? (search? main? index before) (index + before.length) after := by
  induction before generalizing main? index with
  | nil => rfl
  | cons item before ih =>
    rw [List.cons_append, search?, ih, search?, List.length_cons, Nat.add_assoc, Nat.add_comm 1]

/-- Nothing takes over that is not looser. -/
theorem search?_of_le {main? : Option Candidate} (lower : ∀ item ∈ items, item.rank ≤ best main?)
    (index : Nat) : search? main? index items = main? := by
  induction items generalizing index with
  | nil => rfl
  | cons item items ih =>
    obtain ⟨first, others⟩ := List.forall_mem_cons.mp lower
    rw [search?, next?_eq, if_neg (Nat.not_lt.mpr first), ih others]

theorem best_search?_lt {main? : Option Candidate} (start : best main? < bound)
    (lower : ∀ item ∈ items, item.rank < bound) (index : Nat) :
    best (search? main? index items) < bound := by
  induction items generalizing main? index with
  | nil => exact start
  | cons item items ih =>
    obtain ⟨first, others⟩ := List.forall_mem_cons.mp lower
    rw [search?, next?_eq]
    split
    · have taken : best (some ⟨index, item.rank⟩) < bound := first
      exact ih taken others _
    · exact ih start others _

/-- The search stops nowhere, takes the main connective over all that comes before it, and keeps it
to the end. -/
theorem search?_items (main : split.IsMain) : search? none 0 split.items =
    some ⟨split.before.length, split.operator.precedence⟩ := by
  have before : best (search? none 0 split.before) < split.operator.precedence :=
    best_search?_lt split.operator.precedence_pos main.before 0
  rw [Split.items, search?_append, search?, next?_eq, Item.rank_operator, if_pos before,
    search?_of_le main.after, Nat.zero_add]

theorem search?_map_emptied (main? : Option Candidate) (index : Nat) :
    search? main? index (items.map Item.emptied) = search? main? index items := by
  induction items generalizing main? index with
  | nil => rfl
  | cons item items ih => simp only [List.map_cons, search?, next?_eq, Item.rank_emptied, ih]

end Candidate

theorem mainConnective?_items (main : split.IsMain) :
    mainConnective? split.items = some split.before.length := by
  simp only [mainConnective?, Candidate.search?_items main, Option.map_some]

theorem mainConnective?_of_unranked (unranked : ∀ item ∈ items, item.rank = 0) :
    mainConnective? items = none := by
  have lower : ∀ item ∈ items, item.rank ≤ Candidate.best none := by
    intro item member
    exact Nat.le_of_eq (unranked item member)
  simp only [mainConnective?, Candidate.search?_of_le lower, Option.map_none]

theorem mainConnective?_map_emptied (items : List Item) :
    mainConnective? (items.map Item.emptied) = mainConnective? items := by
  simp only [mainConnective?, Candidate.search?_map_emptied]

namespace Split

theorem IsMain.rank_le {item : Item} (main : split.IsMain) (member : item ∈ split.items) :
    item.rank ≤ split.operator.precedence := by
  simp only [Split.items, List.mem_append, List.mem_cons] at member
  rcases member with member | rfl | member
  · exact Nat.le_of_lt (main.before item member)
  · exact Nat.le_refl _
  · exact main.after item member

/-- A sequence with an operator has a leftmost one among its loosest. -/
theorem exists_isMain_or_unranked (items : List Item) :
    (∃ split : Split, split.items = items ∧ split.IsMain) ∨ ∀ item ∈ items, item.rank = 0 := by
  induction items with
  | nil => exact .inr (by simp)
  | cons item items ih =>
    cases found : item.precedence? with
    | none =>
      have unranked : item.rank = 0 := by rw [Item.rank, found, Option.getD_none]
      rcases ih with ⟨split, rfl, main⟩ | others
      · have first : item.rank < split.operator.precedence := by
          rw [unranked]
          exact split.operator.precedence_pos
        have before : ∀ other ∈ item :: split.before, other.rank < split.operator.precedence :=
          List.forall_mem_cons.mpr ⟨first, main.before⟩
        exact .inl ⟨⟨item :: split.before, split.operator, split.after⟩, rfl, before, main.after⟩
      · exact .inr (List.forall_mem_cons.mpr ⟨unranked, others⟩)
    | some precedence =>
      obtain ⟨op, rfl, -⟩ := Item.precedence?_eq_some found
      rcases ih with ⟨split, rfl, main⟩ | others
      · rcases Nat.lt_or_ge op.precedence split.operator.precedence with looser | tighter
        · have first : (Item.token (.operator op)).rank < split.operator.precedence := looser
          have before : ∀ item ∈ .token (.operator op) :: split.before,
              item.rank < split.operator.precedence :=
            List.forall_mem_cons.mpr ⟨first, main.before⟩
          exact .inl ⟨⟨.token (.operator op) :: split.before, split.operator, split.after⟩, rfl,
            before, main.after⟩
        · have after : ∀ item ∈ split.items, item.rank ≤ op.precedence := by
            intro item member
            exact Nat.le_trans (main.rank_le member) tighter
          exact .inl ⟨⟨[], op, split.items⟩, rfl, by simp, after⟩
      · have after : ∀ item ∈ items, item.rank ≤ op.precedence := by
          intro item member
          rw [others item member]
          exact Nat.zero_le _
        exact .inl ⟨⟨[], op, items⟩, rfl, by simp, after⟩

theorem ofItems?_items (main : split.IsMain) : ofItems? split.items = some split := by
  simp only [ofItems?, mainConnective?_items main]
  simp [Split.items]

theorem ofItems?_of_unranked (unranked : ∀ item ∈ items, item.rank = 0) :
    ofItems? items = none := by
  simp only [ofItems?, mainConnective?_of_unranked unranked]

theorem ofItems?_eq_some_iff :
    ofItems? items = some split ↔ split.items = items ∧ split.IsMain := by
  constructor
  · intro found
    rcases exists_isMain_or_unranked items with ⟨other, rfl, main⟩ | unranked
    · obtain rfl := Option.some.inj ((ofItems?_items main).symm.trans found)
      exact ⟨rfl, main⟩
    · rw [ofItems?_of_unranked unranked] at found
      contradiction
  · rintro ⟨rfl, main⟩
    exact ofItems?_items main

/-- A sequence has one main connective at most. -/
theorem eq_of_isMain {other : Split} (found : ofItems? items = some split)
    (whole : other.items = items) (main : other.IsMain) : other = split :=
  Option.some.inj ((ofItems?_eq_some_iff.mpr ⟨whole, main⟩).symm.trans found)

theorem ofItems?_operator (op : Operator) :
    ofItems? [.token (.operator op)] = some ⟨[], op, []⟩ :=
  ofItems?_eq_some_iff.mpr ⟨rfl, by simp, by simp⟩

theorem ofItems?_eq_none_iff : ofItems? items = none ↔ ∀ item ∈ items, item.rank = 0 := by
  constructor
  · intro missing
    rcases exists_isMain_or_unranked items with ⟨split, rfl, main⟩ | unranked
    · rw [ofItems?_items main] at missing
      contradiction
    · exact unranked
  · exact ofItems?_of_unranked

theorem ofItems?_single {item : Item} (unranked : item.rank = 0) : ofItems? [item] = none :=
  ofItems?_of_unranked (by simpa using unranked)

theorem ofItems?_var (name : Char) : ofItems? [.token (.var name)] = none :=
  ofItems?_single (Item.rank_var name)

theorem ofItems?_group (content : List Item) : ofItems? [.group content] = none :=
  ofItems?_single (Item.rank_group content)

theorem not_isMain_of_unsplit (unsplit : ofItems? items = none) (whole : split.items = items) :
    ¬ split.IsMain := by
  intro main
  have found := ofItems?_eq_some_iff.mpr ⟨whole, main⟩
  simp [unsplit] at found

theorem IsMain.isMainAt (main : split.IsMain) :
    IsMainAt split.items split.before.length split.operator := by
  refine isMainAt_iff.mpr ⟨by simp [Split.items], fun j other earlier stands => ?_,
    fun j other _ stands => main.rank_le (List.mem_of_getElem? stands)⟩
  rw [Split.items, List.getElem?_append_left earlier] at stands
  exact main.before _ (List.mem_of_getElem? stands)

theorem isMain_of_isMainAt (main : IsMainAt items i op) :
    IsMain ⟨items.take i, op, items.drop (i + 1)⟩ := by
  obtain ⟨-, before, -⟩ := isMainAt_iff.mp main
  constructor
  · intro item member
    obtain ⟨j, found⟩ := List.mem_iff_getElem?.mp member
    rcases item.rank_cases with zero | ⟨other, rfl⟩
    · exact zero ▸ op.precedence_pos
    · rw [List.getElem?_take] at found
      split at found
      next earlier => exact before j other earlier found
      next => contradiction
  · intro item member
    obtain ⟨j, found⟩ := List.mem_iff_getElem?.mp member
    rcases item.rank_cases with zero | ⟨other, rfl⟩
    · exact zero ▸ Nat.zero_le _
    · rw [List.getElem?_drop] at found
      exact (main.2 _ other found).1

theorem items_of_isMainAt (main : IsMainAt items i op) :
    (⟨items.take i, op, items.drop (i + 1)⟩ : Split).items = items := by
  obtain ⟨within, here⟩ := List.getElem?_eq_some_iff.mp main.1
  simp only [Split.items, ← here, List.getElem_cons_drop, List.take_append_drop]

theorem ofItems?_of_isMainAt (main : IsMainAt items i op) :
    ofItems? items = some ⟨items.take i, op, items.drop (i + 1)⟩ :=
  ofItems?_eq_some_iff.mpr ⟨items_of_isMainAt main, isMain_of_isMainAt main⟩

theorem exists_isMainAt (member : .token (.operator op) ∈ items) :
    ∃ i op, IsMainAt items i op := by
  rcases exists_isMain_or_unranked items with ⟨split, rfl, main⟩ | unranked
  · exact ⟨_, _, main.isMainAt⟩
  · have zero := unranked _ member
    have positive := op.precedence_pos
    rw [Item.rank_operator] at zero
    omega

theorem ofItems?_eq_none (absent : ∀ op, .token (.operator op) ∉ items) :
    ofItems? items = none :=
  ofItems?_of_unranked (Item.unranked_of_absent absent)

end Split

theorem mainConnective?_eq_some_iff :
    mainConnective? items = some i ↔ ∃ op, IsMainAt items i op := by
  constructor
  · intro found
    rcases Split.exists_isMain_or_unranked items with ⟨split, rfl, main⟩ | unranked
    · obtain rfl := Option.some.inj ((mainConnective?_items main).symm.trans found)
      exact ⟨split.operator, main.isMainAt⟩
    · have absent := (mainConnective?_of_unranked unranked).symm.trans found
      contradiction
  · rintro ⟨op, main⟩
    have within := (List.getElem?_eq_some_iff.mp main.1).1
    have found := mainConnective?_items (Split.isMain_of_isMainAt main)
    rwa [Split.items_of_isMainAt main, List.length_take_of_le (Nat.le_of_lt within)] at found

/-- Where the search settles there is an operator, and the sequence is taken apart at it. -/
theorem Split.ofItems?_of_mainConnective? (found : mainConnective? items = some i) :
    ∃ op, items[i]? = some (.token (.operator op)) ∧
      ofItems? items = some ⟨items.take i, op, items.drop (i + 1)⟩ := by
  obtain ⟨op, main⟩ := mainConnective?_eq_some_iff.mp found
  exact ⟨op, main.1, ofItems?_of_isMainAt main⟩

theorem mainConnective?_eq_none_iff :
    mainConnective? items = none ↔ ∀ op, .token (.operator op) ∉ items := by
  constructor
  · intro missing op member
    obtain ⟨i, main⟩ := Split.exists_isMainAt member
    have found := mainConnective?_eq_some_iff.mpr main
    simp [missing] at found
  · intro absent
    exact mainConnective?_of_unranked (Item.unranked_of_absent absent)

namespace IsMainAt

theorem binary_not_mem (main : IsMainAt items i .not) (op : Connective) :
    .token (.operator (.binary op)) ∉ items := by
  intro member
  obtain ⟨j, stands⟩ := List.mem_iff_getElem?.mp member
  have notAbove : op.precedence ≤ 1 := (main.2 j _ stands).1
  exact Nat.not_lt.mpr notAbove op.one_lt_precedence

theorem no_operator_before (main : IsMainAt items i .not) {j : Nat} (earlier : j < i)
    (op : Operator) : items[j]? ≠ some (.token (.operator op)) := by
  intro stands
  have tighter : op.precedence < 1 := (isMainAt_iff.mp main).2.1 j op earlier stands
  have positive := op.precedence_pos
  omega

end IsMainAt

/-- The search for the main connective misses no operator of the sequence, and where there are
several it settles on the leftmost of those that hold their operands loosest. A negation is found
only where no connective with two operands is, and then no operator stands before it. It makes no
difference what the groups of the sequence have inside. -/
theorem search_finds_leftmost_loosest :
    (∀ items, mainConnective? items = none ↔ ∀ op, .token (.operator op) ∉ items) ∧
    (∀ items i, mainConnective? items = some i ↔
      i < items.length ∧ ∃ op, items[i]? = some (.token (.operator op)) ∧
        (∀ j other, j < i → items[j]? = some (.token (.operator other)) →
          other.precedence < op.precedence) ∧
        ∀ j other, i < j → items[j]? = some (.token (.operator other)) →
          other.precedence ≤ op.precedence) ∧
    (∀ items i, mainConnective? items = some i →
      items[i]? = some (.token (.operator .not)) →
        (∀ op, .token (.operator (.binary op)) ∉ items) ∧
        ∀ j op, j < i → items[j]? ≠ some (.token (.operator op))) ∧
    ∀ items others : List Item, items.map Item.emptied = others.map Item.emptied →
      mainConnective? items = mainConnective? others := by
  refine ⟨fun items => mainConnective?_eq_none_iff, fun items i => ?_, fun items i found here => ?_,
    fun items others same => ?_⟩
  · simp only [mainConnective?_eq_some_iff, ← isMainAt_iff]
    constructor
    · rintro ⟨op, main⟩
      exact ⟨(List.getElem?_eq_some_iff.mp main.1).1, op, main⟩
    · rintro ⟨-, op, main⟩
      exact ⟨op, main⟩
  · obtain ⟨op, main⟩ := mainConnective?_eq_some_iff.mp found
    obtain rfl : op = .not := by simpa [here] using main.1.symm
    exact ⟨main.binary_not_mem, fun j op earlier => main.no_operator_before earlier op⟩
  · calc
      mainConnective? items = mainConnective? (items.map Item.emptied) :=
        (mainConnective?_map_emptied items).symm
      _ = mainConnective? (others.map Item.emptied) := congrArg mainConnective? same
      _ = mainConnective? others := mainConnective?_map_emptied others

/-- The first of two negations, with a looser connective inside a group only. -/
theorem first_of_two_negations_found :
    mainConnective? [.token (.var 'p'), .token (.operator .not), .token (.operator .not),
      .group [.token (.operator (.binary .iff))]] = some 1 ∧
    (∀ op, Item.token (.operator (.binary op)) ∉ [.token (.var 'p'), .token (.operator .not),
      .token (.operator .not), .group [.token (.operator (.binary .iff))]]) ∧
    mainConnective? [.token (.var 'p'), .token (.operator .not), .token (.operator .not),
      .group []] = some 1 := by
  have found : mainConnective? [.token (.var 'p'), .token (.operator .not),
      .token (.operator .not), .group [.token (.operator (.binary .iff))]] = some 1 := by
    rfl
  obtain ⟨_, _, negation, contents⟩ := search_finds_leftmost_loosest
  exact ⟨found, (negation _ _ found rfl).1, (contents _ _ rfl).trans found⟩

end Sentential
