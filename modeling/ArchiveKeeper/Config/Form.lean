import ArchiveKeeper.Check.Basic
import ArchiveKeeper.Config.Basic
import ArchiveKeeper.Url.Basic

namespace ArchiveKeeper.Config

open Check

variable {V : Type} [Visible V]

def switchWords : List (String × Bool) :=
  [("true", true), ("false", false), ("1", true), ("0", false), ("yes", true), ("no", false)]

def switch : Check V Bool := either boolean (oneOf switchWords)

def filled : Check V String := Check.insist string (· ≠ "") (.length 1)

/-- The entries of a list that are not blank, without blanks around them. -/
def entries (parts : List String) : List String := (parts.map Text.trim).filter (· ≠ "")

/-- Locations are listed, or written in one text between commas. -/
def locationList : Check V (List String) :=
  Check.insist
    (Check.map entries (either (Check.map (Text.split ',') string) (listOf string)))
    (· ≠ []) (.rule "at least one archive directory is required")

def isLimit (x : Double) : Bool := x.toInt? == some (-1) || x.atLeastOne

def limitOf (x : Double) : Fetch.Limit :=
  match x.toInt? with
  | some n => if 1 ≤ n then .atMost n.toNat else .unbounded
  | none => .unbounded

def retention : Check V Fetch.Limit :=
  Check.map limitOf (Check.insist (Check.insist numberLike Double.isInteger (.kind .integer .float))
    isLimit (.rule "must be -1 (unbounded) or at least 1"))

def Archive.form : Check V Archive := record fun find =>
  Archive.mk
    <$> field "dirs" locationList find
    <*> field "refreshCron" (withDefault initialSchedule filled) find
    <*> field "retainedJobs" (withDefault .unbounded retention) find
    <*> field "cleanupExpiredJobs" (withDefault true switch) find
    <*> field "cleanupBeyondLimit" (withDefault true switch) find

def backends : List (String × Backend) := [Backend.files, .table].map fun b => (b.name, b)

def Storage.form : Check V Storage := record fun find =>
  Storage.mk
    <$> field "backend" (withDefault Storage.initial.backend (oneOf backends)) find
    <*> field "dir" (withDefault Storage.initial.directory filled) find
    <*> field "kvPath" (withDefault Storage.initial.database filled) find

def ObjectAccess.form : Check V ObjectAccess := record fun find =>
  ObjectAccess.mk
    <$> field "region" (withDefault ObjectAccess.initial.region filled) find
    <*> field "endpoint" (optional (Check.insist string Url.isUrl .url)) find
    <*> field "forcePathStyle" (withDefault ObjectAccess.initial.pathStyle switch) find

def levels : List (String × Log.Threshold) := Log.Threshold.all.map fun t => (t.name, t)

def Logging.form : Check V Logging := record fun find =>
  Logging.mk
    <$> field "level" (withDefault Logging.initial.level (oneOf levels)) find
    <*> field "pretty" (withDefault Logging.initial.pretty switch) find

def form : Check V Config := record fun find =>
  Config.mk
    <$> field "archive" Archive.form find
    <*> field "storage" (withDefault Storage.initial Storage.form) find
    <*> field "s3" (withDefault ObjectAccess.initial ObjectAccess.form) find
    <*> field "logging" (withDefault Logging.initial Logging.form) find

end ArchiveKeeper.Config
