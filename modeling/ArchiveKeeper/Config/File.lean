import ArchiveKeeper.Config.Form
import ArchiveKeeper.Config.Setting
import ArchiveKeeper.Environment.File
import ArchiveKeeper.Files.Tree
import ArchiveKeeper.Yaml.Document

namespace ArchiveKeeper.Config

open Files

/-- The variables that set a single setting: their names, and the section and name of the setting.
-/
def overrides : List (String × String × String) :=
  [("ARCHIVE_DIRS", "archive", "dirs"),
    ("REFRESH_CRON", "archive", "refreshCron"),
    ("RETAINED_JOBS", "archive", "retainedJobs"),
    ("CLEANUP_EXPIRED_JOBS", "archive", "cleanupExpiredJobs"),
    ("CLEANUP_BEYOND_LIMIT", "archive", "cleanupBeyondLimit"),
    ("STORAGE_BACKEND", "storage", "backend"),
    ("STORAGE_DIR", "storage", "dir"),
    ("STORAGE_KV_PATH", "storage", "kvPath"),
    ("AWS_REGION", "s3", "region"),
    ("S3_ENDPOINT", "s3", "endpoint"),
    ("S3_FORCE_PATH_STYLE", "s3", "forcePathStyle"),
    ("LOG_LEVEL", "logging", "level"),
    ("LOG_PRETTY", "logging", "pretty")]

/-- The members of a document, overridden by the variables that are set and not empty. -/
def withOverrides (e : Environment) (members : List (Json.Text × Setting)) :
    List (Json.Text × Setting) :=
  overrides.foldl (fun members o =>
    match e.filled? o.1 with
    | some value => Setting.override o.2.1 o.2.2 value members
    | none => members) members

/-- The configuration that the members of a document make with an environment. -/
def ofDocument (path : String) (e : Environment) (members : List (Json.Text × Json.Value)) :
    Except Failure Config :=
  let settings := withOverrides e (Setting.ofValue e (.object members)).own
  match (form (some (Setting.mapping settings []))).toExcept with
  | .ok config => .ok config
  | .error issues => .error (.configuration (.form path issues))

/-- The members of the document in a text. A document that is null has none. -/
def readDocument (path content : String) : Except Failure (List (Json.Text × Json.Value)) :=
  match Yaml.read? content with
  | none => .error (.configuration (.notYaml path))
  | some node =>
    match node with
    | .null => .ok []
    | .mapping _ | .moment _ | .bytes _ =>
      match node.value? with
      | some (.object members) => .ok members
      | _ => .error (.plain "Maximum call stack size exceeded")
    | .enclosing => .error (.plain "Maximum call stack size exceeded")
    | _ => .error (.configuration (.notMapping path))

def standardPath (base : Path) : String := Path.text (base ++ ["config", "config.yaml"])

def pathVariable : String := "CONFIG_PATH"

def suggestedPath (base : Path) (e : Environment) : String :=
  (e.filled? pathVariable).getD (standardPath base)

/-- The path that is named for the configuration file, by a request or by the environment. -/
def namedPath? (path? : Option String) (e : Environment) : Option String :=
  (path?.filter (· ≠ "")).orElse fun () => e.filled? pathVariable

/-- The configuration in a file. The file may be missing only where none is named. -/
def load (base : Path) (t : Tree) (path? : Option String) (e : Environment) :
    Except Failure Config :=
  let named? := namedPath? path? e
  let path := named?.getD (standardPath base)
  match t.locate base path with
  | .ok (_, .file content _) =>
    match readDocument path content with
    | .ok members => ofDocument path e members
    | .error f => .error f
  | .ok _ => .error (.configuration (.notYaml path))
  | .error _ =>
    if named?.isSome then .error (.configuration (.missingFile path)) else ofDocument path e []

def environmentFile : String := ".env"

/-- An environment with the variables of the environment file of a directory where they are not
set. -/
def withEnvironmentFile (base : Path) (t : Tree) (e : Environment) : Environment :=
  match t.locate base environmentFile with
  | .ok (_, .file content _) => e.extend (Environment.File.read content)
  | _ => e

end ArchiveKeeper.Config
