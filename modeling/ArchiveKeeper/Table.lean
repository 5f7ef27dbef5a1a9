namespace ArchiveKeeper

structure Row where
  key : String
  owner : Option String
  value : String
deriving DecidableEq, Repr, Inhabited

/-- Rows in ascending order of their keys, by code point. -/
abbrev Table := List Row

namespace Table

def insert (row : Row) : Table → Table
  | [] => [row]
  | r :: rows =>
    if row.key < r.key then row :: r :: rows
    else if row.key = r.key then row :: rows
    else r :: insert row rows

def get? (key : String) (t : Table) : Option String :=
  (t.find? fun r => r.key = key).map Row.value

def erase (key : String) (t : Table) : Table := t.filter fun r => r.key ≠ key

def eraseOwned (job : String) (t : Table) : Table := t.filter fun r => r.owner ≠ some job

def hasOwned (job : String) (t : Table) : Bool := t.any fun r => r.owner = some job

def range (low high : String) (t : Table) : List Row :=
  t.filter fun r => ¬ r.key < low ∧ r.key < high

end Table

end ArchiveKeeper
