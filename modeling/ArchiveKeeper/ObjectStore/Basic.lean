import ArchiveKeeper.Operation

namespace ArchiveKeeper

structure StoredObject where
  key : String
  /-- The last modification in milliseconds. -/
  modified : Double
deriving DecidableEq, Repr, Inhabited

structure ObjectStore (σ : Type) where
  /-- The objects of a bucket that stand right below a beginning of their keys. -/
  list : String → String → Operation σ (List StoredObject)
  read : String → String → Operation σ String
  delete : String → String → Operation σ Unit

namespace ObjectStore

def zoom (get : σ → τ) (set : τ → σ → σ) (s : ObjectStore τ) : ObjectStore σ where
  list bucket start := (s.list bucket start).zoom get set
  read bucket key := (s.read bucket key).zoom get set
  delete bucket key := (s.delete bucket key).zoom get set

end ObjectStore

end ArchiveKeeper
