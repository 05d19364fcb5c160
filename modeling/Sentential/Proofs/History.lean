import Mathlib.Data.List.Induction
import Mathlib.Data.Set.Card
import Sentential.Proofs.Assignment

/-!
Assignments through their history. An assignment is made of listed values and changed one name at a
time, and what has become of a name is what the last change of that name left. Everything else that
an assignment shows follows from the values: how many names have one, the listing in ascending
order, and which other assignments it is equal to.
-/
namespace Sentential.Assignment

/-- A step in the history of an assignment. -/
inductive Change
  | set (name : Char) (value : Bool)
  | unset (name : Char)

namespace Change

def name : Change → Char
  | .set name _ | .unset name => name

/-- What the change leaves its name with. -/
def value? : Change → Option Bool
  | .set _ value => some value
  | .unset _ => none

def apply (s : Assignment) : Change → Assignment
  | .set name value => s.insert name value
  | .unset name => s.erase name

theorem get?_apply (s : Assignment) (change : Change) (other : Char) :
    (change.apply s).get? other = if other = change.name then change.value? else s.get? other := by
  cases change with
  | set name value => exact get?_insert s name value other
  | unset name => exact get?_erase s name other

/-- Changes of different names do not get in each other's way. -/
theorem apply_comm {change later : Change} (different : change.name ≠ later.name)
    (s : Assignment) : later.apply (change.apply s) = change.apply (later.apply s) := by
  apply eq_of_get?_eq
  intro name
  simp only [get?_apply]
  grind

end Change

/-- Makes an assignment of listed values and then changes it. -/
def evolve (values : List (Char × Bool)) (changes : List Change) : Assignment :=
  changes.foldl Change.apply (ofList values)

/-- The listed values and the changes after them, as one history. -/
def history (values : List (Char × Bool)) (changes : List Change) : List Change :=
  values.map (fun entry => .set entry.1 entry.2) ++ changes

/-- What the last of the changes of a name leaves it with. A name that none of them is about has no
value. -/
def latest? (changes : List Change) (name : Char) : Option Bool :=
  (changes.filter (·.name == name)).getLast?.bind (·.value?)

/-- All that an assignment shows is what one map of names to values shows. -/
structure Shows (s : Assignment) (map : Char → Option Bool) : Prop where
  get? : ∀ name, s.get? name = map name
  contains : ∀ name, s.contains name = true ↔ map name ≠ none
  size : s.size = {name | map name ≠ none}.ncard
  isEmpty : s.isEmpty = true ↔ s.size = 0
  ascending : s.toList.Pairwise (·.1 < ·.1)
  toList : ∀ name value, (name, value) ∈ s.toList ↔ map name = some value
  ofList : ∀ values : List (Char × Bool), values.Perm s.toList → .ofList values = s

variable {s : Assignment} {name : Char} {value : Bool}

theorem latest?_concat (changes : List Change) (change : Change) (name : Char) :
    latest? (changes ++ [change]) name =
      if name = change.name then change.value? else latest? changes name := by
  by_cases same : name = change.name
  · simp [latest?, same]
  · have other : change.name ≠ name := Ne.symm same
    simp [latest?, same, other]

/-- Changes of the empty assignment leave each name with what the last one about it says. -/
theorem get?_foldl_apply (changes : List Change) (name : Char) :
    (changes.foldl Change.apply empty).get? name = latest? changes name := by
  induction changes using List.reverseRecOn with
  | nil => rfl
  | append_singleton changes change ih =>
    rw [List.foldl_concat, Change.get?_apply, ih, latest?_concat]

/-- Listed values are changes, too, and the first ones. -/
theorem evolve_eq (values : List (Char × Bool)) (changes : List Change) :
    evolve values changes = (history values changes).foldl Change.apply empty := by
  rw [history, List.foldl_append, List.foldl_map, evolve, ofList]
  rfl

theorem get?_evolve (values : List (Char × Bool)) (changes : List Change) (name : Char) :
    (evolve values changes).get? name = latest? (history values changes) name := by
  rw [evolve_eq, get?_foldl_apply]

theorem foldl_apply_perm {changes others : List Change} (same : changes.Perm others)
    (distinct : (changes.map (·.name)).Nodup) (s : Assignment) :
    changes.foldl Change.apply s = others.foldl Change.apply s := by
  apply same.foldl_eq'
  intro change member later laterMember s
  by_cases different : change.name = later.name
  · rw [List.inj_on_of_nodup_map distinct member laterMember different]
  · exact Change.apply_comm different s

theorem ofList_perm {values others : List (Char × Bool)} (same : values.Perm others)
    (distinct : (values.map (·.1)).Nodup) : ofList values = ofList others := by
  have names : ((history values []).map (·.name)).Nodup := by
    simpa [history, Function.comp_def, Change.name] using distinct
  have changes : (history values []).Perm (history others []) := (same.map _).append_right []
  calc
    ofList values = (history values []).foldl Change.apply empty := evolve_eq values []
    _ = (history others []).foldl Change.apply empty := foldl_apply_perm changes names empty
    _ = ofList others := (evolve_eq others []).symm

theorem nodup_names_entries (s : Assignment) : (s.entries.map (·.1)).Nodup := by
  refine List.pairwise_map.mpr (s.ascending.imp ?_)
  intro entry other before
  exact Char.ne_of_lt before

theorem mem_names_entries_iff : name ∈ s.entries.map (·.1) ↔ s.get? name ≠ none := by
  rw [Option.ne_none_iff_exists', List.mem_map]
  constructor
  · rintro ⟨entry, member, rfl⟩
    exact ⟨entry.2, mem_entries_iff.mp member⟩
  · rintro ⟨value, found⟩
    exact ⟨(name, value), mem_entries_iff.mpr found, rfl⟩

theorem size_eq_ncard (s : Assignment) : s.size = {name | s.get? name ≠ none}.ncard := by
  have names : {name | s.get? name ≠ none} = ((s.entries.map (·.1)).toFinset : Set Char) := by
    ext name
    simp only [Set.mem_ofPred_eq, ← mem_names_entries_iff, List.coe_toFinset]
  rw [names, Set.ncard_coe_finset, List.toFinset_card_of_nodup s.nodup_names_entries,
    List.length_map, size]

theorem mem_of_get?_ofList {values : List (Char × Bool)}
    (found : (ofList values).get? name = some value) : (name, value) ∈ values := by
  rw [get?_ofList] at found
  obtain ⟨before, after, whole, -⟩ := List.lookup_eq_some_iff.mp found
  have member : (name, value) ∈ values.reverse := by simp [whole]
  exact List.mem_reverse.mp member

/-- The entries of an assignment make it again, in whatever order they come. -/
theorem ofList_eq_of_perm {values : List (Char × Bool)} (same : values.Perm s.entries) :
    ofList values = s := by
  apply eq_of_get?_eq
  intro name
  cases found : (ofList values).get? name with
  | some value =>
    have member := same.mem_iff.mp (mem_of_get?_ofList found)
    exact (mem_entries_iff.mp member).symm
  | none =>
    have unlisted : name ∉ values.map (·.1) := by
      rw [← contains_ofList_iff, contains, found]
      exact Bool.false_ne_true
    have absent : name ∉ s.entries.map (·.1) := fun member =>
      unlisted ((same.map (·.1)).mem_iff.mpr member)
    rw [mem_names_entries_iff, not_not] at absent
    exact absent.symm

theorem shows_get? (s : Assignment) : s.Shows s.get? where
  get? _ := rfl
  contains _ := Option.isSome_iff_ne_none
  size := s.size_eq_ncard
  isEmpty := by rw [isEmpty, List.isEmpty_iff, size, List.length_eq_zero_iff]
  ascending := by simpa only [toList_eq_entries] using s.ascending
  toList _ _ := by rw [toList_eq_entries, mem_entries_iff]
  ofList _ same := ofList_eq_of_perm (s.toList_eq_entries ▸ same)

/-- Whatever has been done to it, an assignment shows for each name what the last of the listed
values and changes about the name left: by its values, their number and its listing in ascending
order, from which, put in any order, the same assignment is made again. So assignments are equal
just where they give each name the same, and just where their listings are equal. -/
theorem history_decides_all_that_is_shown :
    (∀ (values : List (Char × Bool)) (changes : List Change),
      (evolve values changes).Shows (latest? (history values changes))) ∧
    ∀ s t : Assignment, (s = t ↔ ∀ name, s.get? name = t.get? name) ∧
      (s = t ↔ s.toList = t.toList) := by
  refine ⟨fun values changes => ?_, fun s t => ⟨⟨?_, eq_of_get?_eq⟩, ⟨congrArg toList, ?_⟩⟩⟩
  · have same : (evolve values changes).get? = latest? (history values changes) := by
      funext name
      exact get?_evolve values changes name
    rw [← same]
    exact shows_get? _
  · rintro rfl name
    rfl
  · intro same
    rw [toList_eq_entries, toList_eq_entries] at same
    exact eq_of_entries_eq same

/-- A name that is listed twice, one that is unset and set again, and one that is unset without a
value. -/
theorem names_after_changes :
    (evolve [('q', true), ('p', true), ('q', false)]
      [.unset 'p', .unset 'r', .set 'p' false]).get? 'p' = some false ∧
    (evolve [('q', true), ('p', true), ('q', false)] [.unset 'p', .unset 'r']).get? 'p' = none ∧
    [('q', false), ('p', false)].Perm
      (evolve [('q', true), ('p', true), ('q', false)]
        [.unset 'p', .unset 'r', .set 'p' false]).toList ∧
    ofList [('q', false), ('p', false)] =
      evolve [('q', true), ('p', true), ('q', false)] [.unset 'p', .unset 'r', .set 'p' false] := by
  obtain ⟨shows, -⟩ := history_decides_all_that_is_shown
  have listed : [('q', false), ('p', false)].Perm
      (evolve [('q', true), ('p', true), ('q', false)]
        [.unset 'p', .unset 'r', .set 'p' false]).toList := by
    rw [toList_eq_entries]
    decide
  exact ⟨(shows _ _).get? 'p', (shows _ _).get? 'p', listed, (shows _ _).ofList _ listed⟩

end Sentential.Assignment
