import ArchiveKeeper.Store.Basic
import ArchiveKeeper.Table

namespace ArchiveKeeper.Store.Keyed

def overviewStart : String := "/overviews/"

/-- The least key above all keys that start with `overviewStart`: `0` comes right after `/`. -/
def overviewEnd : String := "/overviews0"

def put (job path json : String) (t : Table) : Except Failure Unit × Table :=
  if Job.owns job path then
    let key := if path = Job.overviewPath then overviewStart ++ job else path
    (.ok (), t.insert ⟨key, some job, json⟩)
  else (.error (outsideTree job path), t)

def publish (json : String) (t : Table) : Table := t.insert ⟨Job.overviewPath, none, json⟩

def listOverviews (t : Table) : List StoredOverview :=
  (t.range overviewStart overviewEnd).map fun r =>
    ⟨String.ofList (r.key.toList.drop overviewStart.length), r.value⟩

end ArchiveKeeper.Store.Keyed
