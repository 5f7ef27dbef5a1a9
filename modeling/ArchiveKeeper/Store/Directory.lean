import ArchiveKeeper.Files.Tree
import ArchiveKeeper.Store.Basic

namespace ArchiveKeeper.Store.Directory

open Files

def ending : String := ".json"

def jobs (root : Path) : Path := root ++ ["jobs"]

def overviews (root : Path) : Path := root ++ ["overviews"]

def within (directory : Path) (s : String) : Path := (Path.segments s).foldl Path.go directory

def overviewFile (root : Path) (job : String) : Path := within (overviews root) (job ++ ending)

def combinedFile (root : Path) : Path := jobs root ++ ["overview" ++ ending]

/-- The file of a REST path, if it is not outside the root. -/
def documentFile? (root : Path) (path : String) : Option Path :=
  let relative := String.ofList (path.toList.dropWhile (· == '/'))
  let file := Path.resolve root (relative ++ ending)
  if root.isBelow file then some file else none

def lift (r : Except SystemFault α) : Except Failure α :=
  match r with
  | .ok a => .ok a
  | .error e => .error (.system e)

/-- Writes a file in place of the one before it, with the directories above it. -/
def replaceFile (t : Tree) (target : Path) (content : String) : Except SystemFault Unit × Tree :=
  match t.makeDirectories target.dropLast with
  | (.error e, t) => (.error e, t)
  | (.ok (), t) => t.replace target content

def inTurn (t : Tree) :
    List (Tree → Except SystemFault Unit × Tree) → Except SystemFault Unit × Tree
  | [] => (.ok (), t)
  | step :: steps =>
    match step t with
    | (.error e, t) => (.error e, t)
    | (.ok (), t) => inTurn t steps

def reset (root : Path) (t : Tree) : Except SystemFault Unit × Tree :=
  inTurn t [(·.removeAll (jobs root)), (·.removeAll (overviews root)),
    (·.makeDirectories (jobs root)), (·.makeDirectories (overviews root))]

def put (root : Path) (job path json : String) (t : Tree) : Except Failure Unit × Tree :=
  if Job.owns job path then
    let target := if path = Job.overviewPath then some (overviewFile root job)
      else documentFile? root path
    match target with
    | none =>
      (.error (.plain ("Document path " ++ path ++ " of job " ++ job ++
        " escapes the storage directory")), t)
    | some target =>
      let (r, t) := replaceFile t target json
      (lift r, t)
  else (.error (outsideTree job path), t)

def get (root : Path) (path : String) (t : Tree) : Except Failure (Option String) :=
  match documentFile? root path with
  | none => .ok none
  | some file =>
    match t.read file with
    | .ok text => .ok (some text)
    | .error .notFound => .ok none
    | .error e => .error (.system e)

/-- Removes something as far as possible, and warns where it is not. -/
def attempt (message : String) (step : Tree → Except SystemFault Unit × Tree) (t : Tree) :
    List Log.Record × Tree :=
  match step t with
  | (.ok (), t) => ([], t)
  | (.error e, t) => ([Log.warn message [("err", .str (Failure.message (.system e)))]], t)

def deleteOverview (root : Path) (job : String) (t : Tree) : List Log.Record × Tree :=
  attempt "Could not delete file from overview directory" (·.remove (overviewFile root job)) t

/-- The overview goes first, so that the job is out of the next combined overview. -/
def delete (root : Path) (job : String) (t : Tree) : List Log.Record × Tree :=
  let (log₁, t) := deleteOverview root job t
  let (log₂, t) := attempt "Could not clean up job directory"
    (·.removeAll (within (jobs root) job)) t
  let (log₃, t) := attempt "Could not delete file from job directory"
    (·.remove (within (jobs root) (job ++ ending))) t
  (log₁ ++ log₂ ++ log₃, t)

def withoutEnding? (name : String) : Option String :=
  (Text.after? ending.toList.reverse name.toList.reverse).map fun cs => String.ofList cs.reverse

/-- The contents of the overview files, in the order of their names. -/
def readOverviews (t : Tree) (directory : Path) :
    List String → Except SystemFault (List StoredOverview)
  | [] => .ok []
  | name :: names =>
    match withoutEnding? name with
    | none => readOverviews t directory names
    | some job =>
      match t.read (directory ++ [name]) with
      | .ok json => (readOverviews t directory names).map (⟨job, json⟩ :: ·)
      | .error .notFound => readOverviews t directory names
      | .error e => .error e

def listOverviews (root : Path) (t : Tree) : Except SystemFault (List StoredOverview) :=
  match t.list (overviews root) with
  | .error .notFound => .ok []
  | .error e => .error e
  | .ok entries => readOverviews t (overviews root) (entries.map Prod.fst)

def anyThere (t : Tree) : List Path → Except SystemFault Bool
  | [] => .ok false
  | p :: ps =>
    match t.find p with
    | .ok _ => .ok true
    | .error .notFound => anyThere t ps
    | .error e => .error e

def holds (root : Path) (job : String) (t : Tree) : Except SystemFault Bool :=
  anyThere t [overviewFile root job, within (jobs root) job, within (jobs root) (job ++ ending)]

end Directory

/-- The store under a root directory: `jobs/<path>.json` for the documents, among them the combined
overview, and `overviews/<id>.json` for the jobs' own overviews. -/
def directory (root : Files.Path) : Store Files.Tree where
  backend := .files
  reset t := let (r, t) := Directory.reset root t; (⟨Directory.lift r, []⟩, t)
  put job path json t := let (r, t) := Directory.put root job path json t; (⟨r, []⟩, t)
  get path t := (⟨Directory.get root path t, []⟩, t)
  delete job t := let (log, t) := Directory.delete root job t; (⟨.ok (), log⟩, t)
  deleteOverview job t := let (log, t) := Directory.deleteOverview root job t; (⟨.ok (), log⟩, t)
  listOverviews t := (⟨Directory.lift (Directory.listOverviews root t), []⟩, t)
  holds job t := (⟨Directory.lift (Directory.holds root job t), []⟩, t)
  publish json t :=
    let (r, t) := Directory.replaceFile t (Directory.combinedFile root) json
    (⟨Directory.lift r, []⟩, t)
  close := Operation.answer ()

end ArchiveKeeper.Store
