import NameInference.Text

/-!
# Tables by name

Tables from names to values, in ascending order of the names.
-/

namespace NameInference

/-- Values by name. -/
abbrev Table (α : Type) := List (Text × α)

namespace Table

variable {α : Type}

/-- The value of a name. -/
def get? (table : Table α) (name : Text) : Option α := table.lookup name

/-- Gives a name a value, in place of the one it had. -/
def set (name : Text) (value : α) : Table α → Table α
  | [] => [(name, value)]
  | (other, v) :: rest =>
    if name == other then (name, value) :: rest
    else if name < other then (name, value) :: (other, v) :: rest
    else (other, v) :: set name value rest

/-- The table of a list of pairs, of which the last one with a name counts. -/
def ofList (pairs : List (Text × α)) : Table α :=
  pairs.foldl (fun table (name, value) => set name value table) []

/-- The table with the values of another one in place of its own. -/
def override (table other : Table α) : Table α :=
  other.foldl (fun table (name, value) => set name value table) table

/-- The values in the order of the names. -/
def values (table : Table α) : List α := table.map (·.2)

end Table

end NameInference
