import ArchiveKeeper.Location.Bucket
import ArchiveKeeper.Url.Basic

namespace ArchiveKeeper

inductive Location where
  | bucket (b : Location.Bucket)
  | directory (path : String)
deriving DecidableEq, Repr

namespace Location

def isFileUrl (s : String) : Bool := (Text.after? "file:".toList s.toList).isSome

def read (s : String) : Except Failure Location :=
  if isBucket s then (Bucket.read s).map .bucket
  else if isFileUrl s then
    match Url.filePath? s with
    | some path => .ok (.directory path)
    | none => .error (.configuration (.notFileUrl s))
  else .ok (.directory s)

/-- The locations that texts name, beside the texts; the first that names none is an error. -/
def readAll : List String → Except Failure (List (String × Location))
  | [] => .ok []
  | s :: rest =>
    match read s with
    | .error e => .error e
    | .ok l => (readAll rest).map ((s, l) :: ·)

end Location

end ArchiveKeeper
