import ArchiveKeeper.Bundle
import ArchiveKeeper.Operation

namespace ArchiveKeeper

structure Archive where
  job : String
  location : String
  /-- The file path or object key of the bundle. -/
  path : String
  /-- The last modification in milliseconds. -/
  modified : Double
deriving DecidableEq, Repr, Inhabited

structure Source (σ : Type) where
  location : String
  list : Operation σ (List Archive)
  read : Archive → Operation σ (List Document)
  remove : Archive → Operation σ Unit

namespace Source

def zoom (get : σ → τ) (set : τ → σ → σ) (s : Source τ) : Source σ where
  location := s.location
  list := s.list.zoom get set
  read a := (s.read a).zoom get set
  remove a := (s.remove a).zoom get set

def ignored (location field name : String) : Log.Record :=
  Log.debug "Ignoring entry that is not a job archive"
    [("location", .str location), (field, .str name)]

end Source

end ArchiveKeeper
