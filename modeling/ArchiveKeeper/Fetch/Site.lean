import ArchiveKeeper.Config.Basic
import ArchiveKeeper.Fetch.Cycle
import ArchiveKeeper.Location.Basic
import ArchiveKeeper.Source.Bucket
import ArchiveKeeper.Source.Directory
import ArchiveKeeper.Store.Database
import ArchiveKeeper.Store.Directory

namespace ArchiveKeeper

/-- The files, the connection to the database, and what the object store keeps. -/
structure Site (τ : Type) where
  files : Files.Tree
  connection : Store.Database.Connection
  objects : τ

namespace Site

variable {τ : Type}

def withFiles (t : Files.Tree) (s : Site τ) : Site τ := { s with files := t }

def withDatabase (w : Store.Database.World) (s : Site τ) : Site τ :=
  { s with files := w.1, connection := w.2 }

def withObjects (o : τ) (s : Site τ) : Site τ := { s with objects := o }

def store (base : Files.Path) (c : Config.Storage) : Store (Site τ) :=
  Store.bindBackend <|
    match c.backend with
    | .files =>
      (Store.directory (Files.Path.resolve base c.directory)).zoom (·.files) withFiles
    | .table =>
      (Store.database (.ofText base c.database)).zoom (fun s => (s.files, s.connection)) withDatabase

def source (base : Files.Path) (objects : ObjectStore τ) (text : String) :
    Location → Source (Site τ)
  | .bucket b => Source.bucket text b (objects.zoom (·.objects) withObjects)
  | .directory path => (Source.directory base text path).zoom (·.files) withFiles

/-- The fetcher of a configuration. Malformed locations are refused first, then a number that sets no
limit, and then repeated locations. -/
def fetcher (base : Files.Path) (objects : ObjectStore τ) (listener : Option (Listener (Site τ)))
    (c : Config) : Except Failure (Fetch.Fetcher (Site τ)) :=
  match Location.readAll c.archive.locations with
  | .error e => .error e
  | .ok locations =>
    match Fetch.Fetcher.accept c.archive.retained.setting c.archive.locations with
    | .error e => .error e
    | .ok limit => .ok {
        sources := locations.map fun l => source base objects l.1 l.2
        store := store base c.storage
        listener := listener
        policy := ⟨limit, c.archive.evictExpired, c.archive.evictBeyondLimit⟩
        cycleBindings := [("component", .str "fetcher")]
        overviewBindings := [("component", .str "overview")] }

end Site

end ArchiveKeeper
