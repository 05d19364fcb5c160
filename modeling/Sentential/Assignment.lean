/-!
Assignments of truth values to variables: finite maps, kept as entries in ascending order of the
names. The entries are determined by the values, so two assignments that give the same values are
equal.
-/
namespace Sentential

structure Assignment where
  entries : List (Char × Bool)
  ascending : entries.Pairwise (·.1 < ·.1)
  deriving DecidableEq

namespace Assignment

/-- Puts an entry where its name belongs, over an entry of the same name. -/
def place (name : Char) (value : Bool) : List (Char × Bool) → List (Char × Bool)
  | [] => [(name, value)]
  | entry :: entries =>
    if name < entry.1 then (name, value) :: entry :: entries
    else if name = entry.1 then (name, value) :: entries
    else entry :: place name value entries

theorem eq_or_mem_of_mem_place {name : Char} {value : Bool} {entries : List (Char × Bool)}
    {x : Char × Bool} (member : x ∈ place name value entries) :
    x = (name, value) ∨ x ∈ entries := by
  fun_induction place <;> grind

theorem pairwise_place (name : Char) (value : Bool) {entries : List (Char × Bool)}
    (ascending : entries.Pairwise (·.1 < ·.1)) :
    (place name value entries).Pairwise (·.1 < ·.1) := by
  induction entries with
  | nil => exact List.pairwise_singleton _ _
  | cons entry entries ih =>
    obtain ⟨first, rest⟩ := List.pairwise_cons.mp ascending
    unfold place
    split
    next lower =>
      refine List.pairwise_cons.mpr ⟨fun x member => ?_, ascending⟩
      rcases List.mem_cons.mp member with rfl | member
      · exact lower
      · exact Char.lt_trans lower (first x member)
    split
    next same => exact List.pairwise_cons.mpr ⟨fun x member => same ▸ first x member, rest⟩
    next notLower different =>
      have above : entry.1 < name :=
        Char.not_le.mp fun le => different (Char.le_antisymm le (Char.not_lt.mp notLower))
      refine List.pairwise_cons.mpr ⟨fun x member => ?_, ih rest⟩
      rcases eq_or_mem_of_mem_place member with rfl | member
      · exact above
      · exact first x member

def empty : Assignment :=
  ⟨[], .nil⟩

def get? (s : Assignment) (name : Char) : Option Bool :=
  s.entries.lookup name

def contains (s : Assignment) (name : Char) : Bool :=
  (s.get? name).isSome

def size (s : Assignment) : Nat :=
  s.entries.length

def isEmpty (s : Assignment) : Bool :=
  s.entries.isEmpty

def insert (s : Assignment) (name : Char) (value : Bool) : Assignment :=
  ⟨place name value s.entries, pairwise_place name value s.ascending⟩

def erase (s : Assignment) (name : Char) : Assignment :=
  ⟨s.entries.filter (·.1 != name), s.ascending.filter _⟩

/-- The last of several values for one name is the one that counts. -/
def ofList (values : List (Char × Bool)) : Assignment :=
  values.foldl (fun s (name, value) => s.insert name value) empty

/-- The values, put in ascending order of the names. -/
def toList (s : Assignment) : List (Char × Bool) :=
  s.entries.mergeSort fun entry other => entry.1 ≤ other.1

/-- An entry takes four characters whatever its name is. -/
def writeEntry : Char × Bool → List Char
  | (name, value) => [name, ':', ' ', if value then '1' else '0']

def text (s : Assignment) : String :=
  String.ofList ('\x7b' :: [',', ' '].intercalate (s.toList.map writeEntry) ++ ['\x7d'])

/-- The order in which entries are kept is the one in which they are listed. -/
theorem toList_eq_entries (s : Assignment) : s.toList = s.entries := by
  apply List.mergeSort_of_pairwise
  apply s.ascending.imp
  intro entry other before
  exact decide_eq_true (Char.not_lt.mp (Char.lt_asymm before))

theorem lookup_place (name : Char) (value : Bool) (entries : List (Char × Bool)) (other : Char) :
    (place name value entries).lookup other =
      if other = name then some value else entries.lookup other := by
  fun_induction place <;> grind

@[simp] theorem get?_empty (name : Char) : empty.get? name = none :=
  rfl

theorem get?_insert (s : Assignment) (name : Char) (value : Bool) (other : Char) :
    (s.insert name value).get? other = if other = name then some value else s.get? other :=
  lookup_place name value s.entries other

theorem get?_erase (s : Assignment) (name other : Char) :
    (s.erase name).get? other = if other = name then none else s.get? other := by
  simp only [get?, erase]
  induction s.entries with
  | nil => simp
  | cons entry entries ih => grind

theorem get?_foldl_insert (values : List (Char × Bool)) (s : Assignment) (name : Char) :
    (values.foldl (fun s (name, value) => s.insert name value) s).get? name =
      (values.reverse.lookup name).or (s.get? name) := by
  induction values generalizing s with
  | nil => rfl
  | cons entry values ih =>
    rw [List.foldl_cons, ih, get?_insert, List.reverse_cons, List.lookup_append]
    grind

/-- The value of a name is the one that comes last. -/
theorem get?_ofList (values : List (Char × Bool)) (name : Char) :
    (ofList values).get? name = values.reverse.lookup name := by
  rw [ofList, get?_foldl_insert, get?_empty, Option.or_none]

theorem contains_ofList_iff {values : List (Char × Bool)} {name : Char} :
    (ofList values).contains name = true ↔ name ∈ values.map (·.1) := by
  rw [contains, get?_ofList, List.lookup_isSome_iff, List.mem_map]
  simp only [List.mem_reverse, beq_iff_eq, @eq_comm _ name]

end Assignment

end Sentential
