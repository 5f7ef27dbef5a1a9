import ArchiveKeeper.Fetch.Retention
import ArchiveKeeper.Log
import ArchiveKeeper.Store.Basic

namespace ArchiveKeeper

namespace Config

structure Archive where
  /-- The archive locations, in the order in which they are visited. -/
  locations : List String
  schedule : String
  retained : Fetch.Limit
  evictExpired : Bool
  evictBeyondLimit : Bool
deriving DecidableEq, Repr, Inhabited

structure Storage where
  backend : Backend
  /-- The root of a store in files. -/
  directory : String
  /-- The database of a store in a table. -/
  database : String
deriving DecidableEq, Repr, Inhabited

structure ObjectAccess where
  region : String
  endpoint : Option String
  pathStyle : Bool
deriving DecidableEq, Repr, Inhabited

structure Logging where
  level : Log.Threshold
  pretty : Bool
deriving DecidableEq, Repr, Inhabited

end Config

structure Config where
  archive : Config.Archive
  storage : Config.Storage
  objects : Config.ObjectAccess
  logging : Config.Logging
deriving DecidableEq, Repr, Inhabited

namespace Config

def Storage.initial : Storage := ⟨.files, "./output/history", "./output/history.sqlite"⟩

def ObjectAccess.initial : ObjectAccess := ⟨"us-east-1", none, false⟩

def Logging.initial : Logging := ⟨.info, false⟩

/-- Every ten seconds. -/
def initialSchedule : String := "*/10 * * * * *"

def limitValue (l : Fetch.Limit) : Json.Value := .number l.setting

def Archive.value (a : Archive) : Json.Value := .record [
  ("dirs", .array (a.locations.map .str)),
  ("refreshCron", .str a.schedule),
  ("retainedJobs", limitValue a.retained),
  ("cleanupExpiredJobs", .bool a.evictExpired),
  ("cleanupBeyondLimit", .bool a.evictBeyondLimit)]

def Storage.value (s : Storage) : Json.Value := .record [
  ("backend", .str s.backend.name),
  ("dir", .str s.directory),
  ("kvPath", .str s.database)]

def ObjectAccess.value (o : ObjectAccess) : Json.Value := .record (
  [("region", .str o.region)] ++ (o.endpoint.map fun e => ("endpoint", Json.Value.str e)).toList ++
    [("forcePathStyle", .bool o.pathStyle)])

def Logging.value (l : Logging) : Json.Value := .record [
  ("level", .str l.level.name),
  ("pretty", .bool l.pretty)]

def sections (c : Config) : List (String × Json.Value) := [
  ("archive", c.archive.value),
  ("storage", c.storage.value),
  ("s3", c.objects.value),
  ("logging", c.logging.value)]

def value (c : Config) : Json.Value := .record c.sections

end Config

end ArchiveKeeper
