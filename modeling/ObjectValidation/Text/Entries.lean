/-!
# Entries sorted by key

A finite map from texts, kept as a list with ascending keys. Texts compare by their code points, so
two maps with the same entries are the same list.
-/

namespace ObjectValidation

/-- A finite map from texts as its list of entries, the least key first. -/
abbrev Entries (α : Type) := List (String × α)

namespace Entries

/-- The entries with the value under the key, in place of the value that was there. -/
def insert {α : Type} (key : String) (value : α) : Entries α → Entries α
  | [] => [(key, value)]
  | (k, v) :: rest =>
    if k = key then (key, value) :: rest
    else if key < k then (key, value) :: (k, v) :: rest
    else (k, v) :: insert key value rest

/-- The value under the key. -/
def get? {α : Type} (key : String) (entries : Entries α) : Option α := List.lookup key entries

/-- The entries without the key. -/
def erase {α : Type} (key : String) (entries : Entries α) : Entries α :=
  entries.filter fun e => e.1 != key

/-- The entries of a list of pairs, of which a later one wins over an earlier one. -/
def ofList {α : Type} (pairs : List (String × α)) : Entries α :=
  pairs.foldl (fun entries p => insert p.1 p.2 entries) []

end Entries

end ObjectValidation
