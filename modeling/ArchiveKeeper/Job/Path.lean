import ArchiveKeeper.Job.Id
import ArchiveKeeper.Text.Beginning
import ArchiveKeeper.Text.Blank

namespace ArchiveKeeper.Job

/-- The path of the jobs overview, and of a job's own overview inside its bundle. -/
def overviewPath : String := "/jobs/overview"

/-- The path of a job's overview in bundles written before the jobs overview had its name. -/
def legacyOverviewPath : String := "/joboverview"

def root (job : String) : String := "/jobs/" ++ job

def isProperSegment (segment : List Char) : Bool :=
  segment ≠ [] && segment ≠ ['.'] && segment ≠ ['.', '.']

/-- Whether a job may file a document under a path. -/
def owns (job path : String) : Bool :=
  path == overviewPath || path == root job ||
    match Text.after? (root job ++ "/").toList path.toList with
    | some rest => (Text.splitList '/' rest).all isProperSegment
    | none => false

end ArchiveKeeper.Job
