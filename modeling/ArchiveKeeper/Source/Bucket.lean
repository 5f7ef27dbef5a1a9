import ArchiveKeeper.Job.Id
import ArchiveKeeper.Location.Bucket
import ArchiveKeeper.ObjectStore.Basic
import ArchiveKeeper.Source.Basic

namespace ArchiveKeeper.Source

open Location

namespace Bucket

def address (bucket key : String) : String := "s3://" ++ bucket ++ "/" ++ key

/-- The job whose archive a key names below a prefix of keys. -/
def job? (start key : String) : Option String :=
  match Text.after? start.toList key.toList with
  | some name => if Job.isId (String.ofList name) then some (String.ofList name) else none
  | none => none

def archives (location start : String) (objects : List StoredObject) : List Archive :=
  objects.filterMap fun o => (job? start o.key).map (⟨·, location, o.key, o.modified⟩)

def ignoredObjects (location start : String) (objects : List StoredObject) : List Log.Record :=
  (objects.filter fun o => (job? start o.key).isNone).map fun o => ignored location "key" o.key

end Bucket

open Bucket in
def bucket (location : String) (b : Location.Bucket) (store : ObjectStore σ) : Source σ where
  location := location
  list s :=
    match store.list b.name b.start s with
    | (⟨.error _, log⟩, s) => (⟨.error (.listing location), log⟩, s)
    | (⟨.ok objects, log⟩, s) =>
      (⟨.ok (archives location b.start objects), log ++ ignoredObjects location b.start objects⟩, s)
  read a s :=
    match store.read b.name a.path s with
    | (⟨.error _, log⟩, s) =>
      (⟨.error (.ingestion a.job (.unread (address b.name a.path))), log⟩, s)
    | (⟨.ok raw, log⟩, s) =>
      (⟨(Bundle.read a.job raw).map (·.map Bundle.Entry.document), log⟩, s)
  remove a s :=
    match store.delete b.name a.path s with
    | (⟨.error _, log⟩, s) =>
      (⟨.error (.housekeeping (.undeleted (address b.name a.path))), log⟩, s)
    | (⟨.ok (), log⟩, s) => (⟨.ok (), log⟩, s)

end ArchiveKeeper.Source
