import ArchiveKeeper.ObjectStore.Basic
import ArchiveKeeper.Text.Beginning

namespace ArchiveKeeper.ObjectStore

structure MemoryObject where
  bucket : String
  key : String
  body : String
  modified : Double
deriving DecidableEq, Repr, Inhabited

abbrev Memory := List MemoryObject

namespace Memory

def isAt (bucket key : String) (o : MemoryObject) : Bool := o.bucket == bucket && o.key == key

def put (o : MemoryObject) (m : Memory) : Memory :=
  if m.any (isAt o.bucket o.key) then m.map fun e => if isAt o.bucket o.key e then o else e
  else m ++ [o]

def isRightBelow (start key : String) : Bool :=
  match Text.after? start.toList key.toList with
  | some rest => !rest.contains '/'
  | none => false

def inBucket (bucket : String) (m : Memory) : Memory := m.filter fun o => o.bucket == bucket

def listing (m : Memory) : List StoredObject := m.map fun o => ⟨o.key, o.modified⟩

def noKey (bucket key : String) : Failure := .plain ("No object at s3://" ++ bucket ++ "/" ++ key)

def get (bucket key : String) (m : Memory) : Except Failure String :=
  match m.find? (isAt bucket key) with
  | some o => .ok o.body
  | none => .error (noKey bucket key)

def erase (bucket key : String) (m : Memory) : Memory := m.filter fun o => !isAt bucket key o

end Memory

def memory : ObjectStore Memory where
  list bucket start m :=
    let found := (Memory.inBucket bucket m).filter fun o => Memory.isRightBelow start o.key
    (⟨.ok (Memory.listing found), []⟩, m)
  read bucket key m := (⟨Memory.get bucket key m, []⟩, m)
  delete bucket key m := (⟨.ok (), []⟩, Memory.erase bucket key m)

end ArchiveKeeper.ObjectStore
