/-!
# Keyed lists

Lists of entries in increasing order of their keys, each key once. Keys are compared character by
character.
-/

namespace MarkupTrace

abbrev Keyed (α : Type) := List (String × α)

namespace Keyed

variable {α β : Type}

def get? (key : String) : Keyed α → Option α
  | [] => none
  | (k, v) :: rest => if k = key then some v else get? key rest

/-- The entry of the key is put in or replaced. -/
def insert (key : String) (value : α) : Keyed α → Keyed α
  | [] => [(key, value)]
  | (k, v) :: rest =>
    if k = key then (key, value) :: rest
    else if key < k then (key, value) :: (k, v) :: rest
    else (k, v) :: insert key value rest

/-- All entries of the second list are put into the first. -/
def extend (entries added : Keyed α) : Keyed α :=
  added.foldl (fun done e => insert e.1 e.2 done) entries

/-- Entries in any order; of entries with one key the last counts. -/
def ofList (entries : List (String × α)) : Keyed α := extend [] entries

@[simp] theorem get?_nil (key : String) : get? key ([] : Keyed α) = none := rfl

theorem get?_insert_self (key : String) (value : α) (entries : Keyed α) :
    get? key (insert key value entries) = some value := by
  induction entries with
  | nil => simp [insert, get?]
  | cons e rest ih =>
    obtain ⟨k, v⟩ := e
    by_cases hk : k = key
    · simp [insert, get?, hk]
    · by_cases hlt : key < k
      · simp [insert, get?, hk, hlt]
      · simp [insert, get?, hk, hlt, ih]

theorem get?_insert_of_ne {key other : String} (h : other ≠ key) (value : α) (entries : Keyed α) :
    get? other (insert key value entries) = get? other entries := by
  induction entries with
  | nil => simp [insert, get?, Ne.symm h]
  | cons e rest ih =>
    obtain ⟨k, v⟩ := e
    by_cases hk : k = key
    · simp [insert, get?, hk, Ne.symm h]
    · by_cases hlt : key < k
      · simp [insert, get?, hk, hlt, Ne.symm h]
      · simp [insert, get?, hk, hlt, ih]

end Keyed

end MarkupTrace
