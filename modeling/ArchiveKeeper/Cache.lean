import ArchiveKeeper.Failure

namespace ArchiveKeeper

structure Cache where
  places : List (String × List String)
deriving DecidableEq, Repr, Inhabited

namespace Cache

def ofLocations (locations : List String) : Cache :=
  ⟨(locations.foldl (fun seen l => if l ∈ seen then seen else seen ++ [l]) []).map (·, [])⟩

def locations (c : Cache) : List String := c.places.map Prod.fst

def ids? (c : Cache) (location : String) : Option (List String) :=
  (c.places.find? fun p => p.1 = location).map Prod.snd

/-- The ids held from a location, in the order they came. -/
def ids (c : Cache) (location : String) : List String := (c.ids? location).getD []

/-- The ids of a location that must be among the known ones. -/
def known (c : Cache) (location : String) : Except Failure (List String) :=
  match c.ids? location with
  | some ids => .ok ids
  | none => .error (.plain ("Unknown archive location: " ++ location))

def has (c : Cache) (location job : String) : Bool := decide (job ∈ c.ids location)

def holds (c : Cache) (job : String) : Bool := c.places.any fun p => decide (job ∈ p.2)

def heldElsewhere (c : Cache) (location job : String) : Bool :=
  c.places.any fun p => p.1 ≠ location && decide (job ∈ p.2)

def update (c : Cache) (location : String) (f : List String → List String) : Cache :=
  ⟨c.places.map fun p => if p.1 = location then (p.1, f p.2) else p⟩

def addId (job : String) (ids : List String) : List String :=
  if job ∈ ids then ids else ids ++ [job]

def removeId (job : String) (ids : List String) : List String := ids.filter (· ≠ job)

def ingest (c : Cache) (location job : String) : Cache := c.update location (addId job)

def evict (c : Cache) (location job : String) : Cache := c.update location (removeId job)

def size (c : Cache) : Nat := (c.places.flatMap Prod.snd).length

end Cache

end ArchiveKeeper
