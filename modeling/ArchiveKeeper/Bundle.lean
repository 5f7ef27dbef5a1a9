import ArchiveKeeper.Check.Basic
import ArchiveKeeper.Failure
import ArchiveKeeper.Json.Printer
import ArchiveKeeper.Json.Reader

namespace ArchiveKeeper

/-- A document of a job, as JSON text under its REST path. -/
structure Document where
  path : String
  json : String
deriving DecidableEq, Repr, Inhabited

namespace Bundle

/-- A document as a bundle spells it, where an escape can leave half of a surrogate pair. -/
structure Entry where
  path : Json.Text
  json : Json.Text
deriving DecidableEq, Repr, Inhabited

def Entry.document (x : Entry) : Document := ⟨x.path.toString, x.json.toString⟩

def Entry.ofDocument (d : Document) : Entry := ⟨.ofString d.path, .ofString d.json⟩

def Entry.value (x : Entry) : Json.Value :=
  .record [("path", .string x.path), ("json", .string x.json)]

open Check in
def entry : Check Json.Value Entry :=
  record fun find =>
    Entry.mk <$> field "path" (insist text (· ≠ []) (.length 1)) find <*> field "json" text find

open Check in
def entries : Check Json.Value (List Entry) :=
  record (field "archive" (listOf entry))

def read (job raw : String) : Except Failure (List Entry) :=
  match Json.Value.read? raw with
  | none => .error (.malformed job .bundleNotJson)
  | some value =>
    match (entries (some value)).toExcept with
    | .ok xs => .ok xs
    | .error issues => .error (.malformed job (.bundleForm issues))

def write (xs : List Entry) : String :=
  Json.Value.text (.record [("archive", .array (xs.map Entry.value))])

end Bundle

end ArchiveKeeper
