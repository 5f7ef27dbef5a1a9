import ArchiveKeeper.Check.Basic
import ArchiveKeeper.Json.Printer
import ArchiveKeeper.Json.Reader

namespace ArchiveKeeper

structure StoredOverview where
  job : String
  json : String
deriving DecidableEq, Repr, Inhabited

namespace Overview

/-- A job as an overview lists it: its id, and all its members as they were written. -/
structure Listed where
  id : Json.Text
  members : List (Json.Text × Json.Value)
deriving Repr, Inhabited

/-- Why a stored overview is left out of the combined one. -/
inductive Fault where
  | notJson
  | form (issues : List Check.Issue)
deriving DecidableEq, Repr

def Fault.text : Fault → String
  | .notJson => "invalid JSON"
  | .form issues => "schema: " ++ Check.Issue.report issues

def idName : Json.Text := Json.Text.ofString "jid"

def droppedName : Json.Text := Json.Text.ofString "__proto__"

def ordered (id : Json.Text) (members : List (Json.Text × Json.Value)) :
    List (Json.Text × Json.Value) :=
  (idName, .string id) :: members.filter fun m => m.1 ≠ idName && m.1 ≠ droppedName

def listed : Check Json.Value Listed := fun v =>
  (Check.record (Check.field "jid" Check.text) v).map fun id =>
    match v with
    | some (.object members) => ⟨id, ordered id members⟩
    | _ => ⟨id, ordered id []⟩

def jobs : Check Json.Value (List Listed) :=
  Check.record (Check.field "jobs" (Check.listOf listed))

def read (json : String) : Except Fault (List Listed) :=
  match Json.Value.read? json with
  | none => .error .notJson
  | some value =>
    match (jobs (some value)).toExcept with
    | .ok js => .ok js
    | .error issues => .error (.form issues)

def firsts (seen : List Json.Text) : List Listed → List Listed
  | [] => []
  | j :: js => if j.id ∈ seen then firsts seen js else j :: firsts (j.id :: seen) js

/-- All jobs of the readable overviews, each id once. -/
def merge (stored : List StoredOverview) : List Listed :=
  firsts [] (stored.flatMap fun o => (read o.json).toOption.getD [])

def unreadable (stored : List StoredOverview) : List (String × Fault) :=
  stored.filterMap fun o =>
    match read o.json with
    | .ok _ => none
    | .error fault => some (o.job, fault)

def write (js : List Listed) : String :=
  Json.Value.text (.record [("jobs", .array (js.map fun j => .object j.members))])

end Overview

end ArchiveKeeper
