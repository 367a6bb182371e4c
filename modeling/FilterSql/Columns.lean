/-!
Columns by number. A record names a column by its id, and the map gives the name to print. Each id
has one entry; a later name for an id replaces an earlier one.
-/

namespace FilterSql

structure Columns where
  entries : List (Int × String)

namespace Columns

def empty : Columns := ⟨[]⟩

def get? (columns : Columns) (id : Int) : Option String :=
  (columns.entries.find? fun entry => entry.1 == id).map Prod.snd

def insert (columns : Columns) (id : Int) (name : String) : Columns :=
  ⟨(id, name) :: columns.entries.filter fun entry => entry.1 != id⟩

/-- The columns of a list of pairs, the last name for an id winning. -/
def ofList (pairs : List (Int × String)) : Columns :=
  pairs.foldl (fun columns pair => columns.insert pair.1 pair.2) empty

@[simp] theorem get?_empty (id : Int) : empty.get? id = none := rfl

@[simp] theorem get?_insert (columns : Columns) (id other : Int) (name : String) :
    (columns.insert id name).get? other = if id = other then some name else columns.get? other := by
  by_cases h : id = other
  · simp [get?, insert, h]
  · have hid : (id == other) = false := by simpa using h
    simp only [get?, insert, h, if_false, List.find?_cons, hid, List.find?_filter]
    congr 2
    funext entry
    by_cases he : entry.1 = other
    · simp [he, Ne.symm h]
    · simp [he]

end Columns

end FilterSql
