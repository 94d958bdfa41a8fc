/-
Finite maps that remember the order in which their keys came: a key keeps the place where it was
first put and takes the value that was put last.
-/
namespace BinRecord

/-- Entries in the order of their keys' first appearance. -/
abbrev OrderedMap (α : Type) := List (String × α)

namespace OrderedMap

variable {α : Type}

/-- Puts a value under a key: in the key's place, or at the end if it is new. -/
def insert (key : String) (value : α) : OrderedMap α → OrderedMap α
  | [] => [(key, value)]
  | e :: es => if e.1 = key then (key, value) :: es else e :: insert key value es

/-- The value under a key. -/
def get? (m : OrderedMap α) (key : String) : Option α := List.lookup key m

/-- The map that results from putting entries one after the other. -/
def ofEntries (entries : List (String × α)) : OrderedMap α :=
  entries.foldl (fun m e => insert e.1 e.2 m) []

theorem get?_insert_self (key : String) (value : α) (m : OrderedMap α) :
    get? (insert key value m) key = some value := by
  induction m with
  | nil => simp [insert, get?]
  | cons e es ih =>
    obtain ⟨k, v⟩ := e
    by_cases h : k = key
    · simp [insert, h, get?]
    · have hne : (key == k) = false := by simpa using fun x => h x.symm
      simpa [insert, h, get?, List.lookup_cons, hne] using ih

theorem get?_insert_of_ne {key other : String} (h : other ≠ key) (value : α) (m : OrderedMap α) :
    get? (insert key value m) other = get? m other := by
  have hne : (other == key) = false := by simpa using h
  induction m with
  | nil => simp [insert, get?, List.lookup_cons, hne]
  | cons e es ih =>
    obtain ⟨k, v⟩ := e
    by_cases he : k = key
    · simp [insert, he, get?, List.lookup_cons, hne]
    · simp only [insert, he, if_false, get?, List.lookup_cons]
      split
      · rfl
      · exact ih

theorem keys_insert (key : String) (value : α) (m : OrderedMap α) : (insert key value m).map (·.1) =
    if key ∈ m.map (·.1) then m.map (·.1) else m.map (·.1) ++ [key] := by
  induction m with
  | nil => simp [insert]
  | cons e es ih =>
    by_cases h : e.1 = key
    · simp [insert, h]
    · have h' : key ≠ e.1 := fun he => h he.symm
      simp only [insert, h, if_false, List.map_cons, ih, List.mem_cons, h', false_or]
      split <;> rfl

/-! ## Entries put one after the other -/

/-- The entry that is put last comes first in the reversed list, on which the inductions here go. -/
theorem ofEntries_reverse_cons (e : String × α) (es : List (String × α)) :
    ofEntries (e :: es).reverse = insert e.1 e.2 (ofEntries es.reverse) := by
  simp [ofEntries]

/-- The keys stand in the order of their first appearance. -/
theorem keys_ofEntries (entries : List (String × α)) :
    (ofEntries entries).map (·.1) = (entries.map (·.1)).eraseDups := by
  have hrev : ∀ es : List (String × α),
      (ofEntries es.reverse).map (·.1) = (es.reverse.map (·.1)).eraseDups := fun es => by
    induction es with
    | nil => simp [ofEntries]
    | cons e es ih =>
      rw [ofEntries_reverse_cons, keys_insert, ih, List.reverse_cons, List.map_append, List.eraseDups_append]
      generalize es.reverse.map (·.1) = keys
      by_cases h : e.1 ∈ keys
      · rw [if_pos (List.mem_eraseDups.2 h)]
        simp [List.removeAll, h]
      · rw [if_neg (fun h' => h (List.mem_eraseDups.1 h'))]
        simp [List.removeAll, h, List.eraseDups_cons]
  simpa using hrev entries.reverse

/-- A key has the value that was put last. -/
theorem get?_ofEntries (entries : List (String × α)) (key : String) :
    get? (ofEntries entries) key = entries.reverse.lookup key := by
  have hrev : ∀ es : List (String × α), get? (ofEntries es.reverse) key = es.lookup key := fun es => by
    induction es with
    | nil => rfl
    | cons e es ih =>
      rw [ofEntries_reverse_cons, List.lookup_cons]
      split
      · rename_i h
        rw [beq_iff_eq.1 h, get?_insert_self]
      · rename_i h
        rw [get?_insert_of_ne (by simpa using h), ih]
  simpa using hrev entries.reverse

end OrderedMap

end BinRecord
