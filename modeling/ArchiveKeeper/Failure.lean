import ArchiveKeeper.Check.Issue
import ArchiveKeeper.Json.Plain

namespace ArchiveKeeper

/-- Refusals of the file system and of the database file. -/
inductive SystemFault where
  | notFound
  | notDirectory
  | isDirectory
  | alreadyExists
  | nameTooLong
  | badName
  /-- The database file cannot be opened. -/
  | unopened
  | notDatabase
deriving DecidableEq, Repr

/-- The file system's own wording is not kept. -/
def SystemFault.message : SystemFault → String
  | .unopened => "unable to open database file"
  | .notDatabase => "file is not a database"
  | _ => "system error"

namespace Failure

inductive Ingestion where
  | unread (source : String)
  | unstored (path : String)
  | outsideTree (path : String)
  | other (wording : String)
deriving DecidableEq, Repr

inductive Malformed where
  | bundleNotJson
  | bundleForm (issues : List Check.Issue)
  | legacyNotJson
  | legacyForm (issues : List Check.Issue)
  | countsMissing
  | other (wording : String)
deriving DecidableEq, Repr

inductive Configuration where
  | retention (limit : Double)
  | noLocation
  | locationTwice (location : String)
  | notBucket (location : String)
  | notFileUrl (location : String)
  | cron (expression : String)
  | missingFile (path : String)
  | notYaml (path : String)
  | notMapping (path : String)
  | form (path : String) (issues : List Check.Issue)
  | other (wording : String)
deriving DecidableEq, Repr

inductive Housekeeping where
  | undeleted (source : String)
  | other (wording : String)
deriving DecidableEq, Repr

end Failure

inductive Failure where
  /-- A location could not be listed; nothing of it may be evicted. -/
  | listing (location : String)
  /-- A bundle could not be read or its documents could not be stored. -/
  | ingestion (job : String) (reason : Failure.Ingestion)
  | malformed (job : String) (reason : Failure.Malformed)
  | configuration (reason : Failure.Configuration)
  | housekeeping (reason : Failure.Housekeeping)
  | general (wording : String)
  | system (fault : SystemFault)
  | plain (wording : String)
  /-- A bare text in place of an error. -/
  | bare (text : String)
deriving DecidableEq, Repr

namespace Failure

def Ingestion.message (job : String) : Ingestion → String
  | .unread source => "Failed to read archive " ++ source
  | .unstored path => "Failed to store " ++ path ++ " of job " ++ job
  | .outsideTree path => "Document path " ++ path ++ " is outside the tree of job " ++ job
  | .other wording => wording

def Malformed.message (job : String) : Malformed → String
  | .bundleNotJson => "Archive of job " ++ job ++ " is not valid JSON"
  | .bundleForm issues =>
    "Archive of job " ++ job ++ " is malformed. " ++ Check.Issue.report issues
  | .legacyNotJson => "Legacy overview of job " ++ job ++ " is not valid JSON"
  | .legacyForm issues =>
    "Legacy overview of job " ++ job ++ " is invalid. " ++ Check.Issue.report issues
  | .countsMissing =>
    "Legacy overview of job " ++ job ++
      " has neither 'pending' nor 'created'/'scheduled'/'deploying' task counts"
  | .other wording => wording

def Configuration.message : Configuration → String
  | .retention limit =>
    "Cannot set retained jobs to " ++ limit.text ++ "; it must be -1 (unbounded) or at least 1."
  | .noLocation => "At least one archive location is required."
  | .locationTwice location => "Archive location configured twice: " ++ location
  | .notBucket location => "Not an S3 location: " ++ location
  | .notFileUrl location => "Not a local file URL: " ++ location
  | .cron expression => "Invalid refresh cron expression: " ++ expression
  | .missingFile path => "Config file not found: " ++ path
  | .notYaml path => "Invalid YAML in " ++ path ++ ". It cannot be read as one document."
  | .notMapping path => "Config at " ++ path ++ " must be a YAML object."
  | .form path issues =>
    "Invalid config at " ++ path ++ ". Missing or invalid: " ++
      ", ".intercalate (issues.map fun i => i.place ++ " (" ++ i.cause.text ++ ")") ++ "."
  | .other wording => wording

def Housekeeping.message : Housekeeping → String
  | .undeleted source => "Failed to delete archive " ++ source
  | .other wording => wording

def message : Failure → String
  | .listing location => "Failed to list archive location " ++ location
  | .ingestion job reason => reason.message job
  | .malformed job reason => reason.message job
  | .configuration reason => reason.message
  | .housekeeping reason => reason.message
  | .general wording => wording
  | .system fault => fault.message
  | .plain wording => wording
  | .bare text => text

end Failure

/-- What can be thrown, with the text that is logged of it. Of some values no text can be made. -/
class Throwable (ε : Type) where
  text? : ε → Option String

instance : Throwable Failure where
  text? e := some e.message

instance : Throwable Json.Value where
  text? v := v.plain?.map Json.Text.toString

namespace Throwable

/-- What is thrown in its turn where no text can be made of a value. -/
def textless : Failure := .plain "Cannot convert object to primitive value"

def text [Throwable ε] (x : ε) : Except Failure String :=
  match text? x with
  | some text => .ok text
  | none => .error textless

end Throwable

end ArchiveKeeper
