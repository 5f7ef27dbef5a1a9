import ArchiveKeeper.Files.Tree
import ArchiveKeeper.Job.Id
import ArchiveKeeper.Source.Basic

namespace ArchiveKeeper.Source

open Files

namespace Directory

/-- The archives among the entries of a directory; files with other names are reported as ignored.
An entry that is gone by the time it is looked at is left out. -/
def archives (t : Tree) (base : Path) (location directory : String) :
    List (String × Node) → Except SystemFault (List Archive) × List Log.Record
  | [] => (.ok [], [])
  | (name, node) :: rest =>
    if node.isDirectory then archives t base location directory rest
    else if Job.isId name then
      let path := Path.join directory name
      match t.locate base path with
      | .ok (_, node) =>
        let (more, log) := archives t base location directory rest
        (more.map (⟨name, location, path, node.modified⟩ :: ·), log)
      | .error .notFound => archives t base location directory rest
      | .error e => (.error e, [])
    else
      let (more, log) := archives t base location directory rest
      (more, ignored location "name" name :: log)

def list (base : Path) (location directory : String) (t : Tree) : Reply (List Archive) :=
  match t.locate base directory with
  | .ok (p, .directory) =>
    match archives t base location directory (t.entries p) with
    | (.ok found, log) => ⟨.ok found, log⟩
    | (.error _, log) => ⟨.error (.listing location), log⟩
  | _ => ⟨.error (.listing location), []⟩

def read (base : Path) (a : Archive) (t : Tree) : Except Failure (List Document) :=
  match t.locate base a.path with
  | .ok (_, node) =>
    match Tree.content node with
    | .ok raw => (Bundle.read a.job raw).map (·.map Bundle.Entry.document)
    | .error _ => .error (.ingestion a.job (.unread a.path))
  | .error _ => .error (.ingestion a.job (.unread a.path))

/-- Removes an archive; one that is gone already is fine. -/
def remove (base : Path) (a : Archive) (t : Tree) : Except Failure Unit × Tree :=
  match t.locate base a.path with
  | .error .notFound => (.ok (), t)
  | .ok (_, .directory) => (.error (.housekeeping (.undeleted a.path)), t)
  | .ok (p, _) => (.ok (), t.erase p)
  | .error _ => (.error (.housekeeping (.undeleted a.path)), t)

end Directory

def directory (base : Path) (location directory : String) : Source Tree where
  location := location
  list t := (Directory.list base location directory t, t)
  read a t := (⟨Directory.read base a t, []⟩, t)
  remove a t :=
    let (r, t) := Directory.remove base a t
    (⟨r, []⟩, t)

end ArchiveKeeper.Source
