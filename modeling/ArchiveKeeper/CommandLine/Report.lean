import ArchiveKeeper.CommandLine.Misuse
import ArchiveKeeper.Fetch.Cycle

namespace ArchiveKeeper.CommandLine

inductive Ending where
  | done
  /-- A cycle was broken off. -/
  | aborted
  | noDocument (path : String)
  | failed (e : Failure)
  /-- The end of a watch failed, which only the log tells. -/
  | unclean
  | misused (m : Misuse)
deriving DecidableEq, Repr

namespace Ending

/-- What is said about an ending that is not as it should be. -/
def complaint? : Ending → Option String
  | .noDocument path => some ("No cached document at " ++ path)
  | .failed (.configuration reason) => some ("Configuration error: " ++ reason.message)
  | .failed e => some ("Error: " ++ e.message)
  | .misused m => some m.message
  | .done | .aborted | .unclean => none

def exitCode : Ending → Nat
  | .done => 0
  | _ => 1

end Ending

structure Report where
  printed : List String
  ending : Ending
  /-- The records that the configured threshold admits. -/
  log : List Log.Record
deriving Repr

namespace Report

def line (s : String) : String := s ++ "\n"

def output (r : Report) : String := String.join (r.printed.map line)

def complaint (r : Report) : String := String.join (r.ending.complaint?.map line).toList

def ofFailure (e : Failure) : Report := ⟨[], .failed e, []⟩

def limit (t : Log.Threshold) (r : Report) : Report :=
  { r with log := r.log.filter fun record => t.admits record.level }

end Report

def summary (r : Fetch.Result) : List String := [
    "Fetch Summary",
    "-------------",
    "Ingested: " ++ toString r.created.length,
    "Evicted: " ++ toString r.deleted.length,
    "Failed archives: " ++ toString r.failedJobs.length,
    "Unreachable locations: " ++ toString r.failedLocations.length] ++
  r.failedLocations.map ("  " ++ ·) ++
  if r.completed then [] else ["", "The cycle was aborted; see the log for details."]

end ArchiveKeeper.CommandLine
