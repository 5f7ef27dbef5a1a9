import ArchiveKeeper.Files.Tree
import ArchiveKeeper.Store.Keyed

namespace ArchiveKeeper.Store

namespace Database

open Files

/-- Where the table is kept: the directory to create first, and the file in it. -/
structure Place where
  folder : Option Path
  /-- The directory that the opened file needs. -/
  needed : Path
  file : Option Path
deriving Repr, Inhabited

def inMemory : String := ":memory:"

/-- The place that a text names, seen from a working directory. Blanks around a file name do not
count, and without one the table is kept in memory. -/
def Place.ofText (base : Path) (s : String) : Place :=
  let name := Text.trim s
  ⟨if s = inMemory then none else some (Path.resolve base (Path.parent s)),
    Path.resolve base (Path.parent name),
    if name = "" ∨ name = inMemory then none else some (Path.resolve base name)⟩

inductive Connection where
  | closed
  | opened (table : Table)
  /-- The file was opened, but it holds no database. -/
  | broken
deriving Repr, Inhabited

abbrev World := Tree × Connection

def openFile (p : Path) (t : Tree) : Except Failure Table × World :=
  match t.find p with
  | .ok (.database table) => (.ok table, t, .opened table)
  | .ok (.file content _) =>
    if content = "" then (.ok [], t.insert p (.database []), .opened [])
    else (.error (.system .notDatabase), t, .broken)
  | .error .notFound => (.ok [], t.insert p (.database []), .opened [])
  | .ok .directory | .error _ => (.error (.system .unopened), t, .closed)

def openAt (place : Place) (t : Tree) : Except Failure Table × World :=
  match place.file with
  | none => (.ok [], t, .opened [])
  | some p =>
    match t.find place.needed with
    | .ok _ => openFile p t
    | .error _ =>
      (.error (.plain "Cannot open database because the directory does not exist"), t, .closed)

/-- The table, from a connection that is opened with its first use, and again after it was closed. A
table in memory is empty then. -/
def table (place : Place) : World → Except Failure Table × World
  | (t, .opened table) => (.ok table, t, .opened table)
  | (t, .broken) => (.error (.system .notDatabase), t, .broken)
  | (t, .closed) =>
    match place.folder with
    | none => openAt place t
    | some folder =>
      match t.makeDirectories folder with
      | (.error e, t) => (.error (.system e), t, .closed)
      | (.ok (), t) => openAt place t

/-- Keeps a table, in its file too if that is still there. -/
def save (place : Place) (table : Table) (w : World) : World :=
  match place.file with
  | none => (w.1, .opened table)
  | some p =>
    match w.1.node? p with
    | some (.database _) => (w.1.insert p (.database table), .opened table)
    | _ => (w.1, .opened table)

def withTable (place : Place) (act : Table → Except Failure α × Table) (w : World) :
    Except Failure α × World :=
  match table place w with
  | (.error e, w) => (.error e, w)
  | (.ok t, w) =>
    let (r, t) := act t
    (r, save place t w)

def attempt (place : Place) (message job : String) (act : Table → Table) (w : World) :
    Reply Unit × World :=
  match withTable place (fun t => (.ok (), act t)) w with
  | (.ok (), w) => (⟨.ok (), []⟩, w)
  | (.error e, w) =>
    (⟨.ok (), [Log.warn message [("jobId", .str job), ("err", .str e.message)]]⟩, w)

def operation (act : World → Except Failure α × World) : Operation World α := fun w =>
  let (r, w) := act w
  (⟨r, []⟩, w)

end Database

open Database in
def database (place : Place) : Store World where
  backend := .table
  reset := operation (withTable place fun _ => (.ok (), []))
  put job path json := operation fun w =>
    if Job.owns job path then withTable place (Keyed.put job path json) w
    else (.error (outsideTree job path), w)
  get path := operation (withTable place fun t => (.ok (t.get? path), t))
  delete job := attempt place "Could not delete job documents" job (Table.eraseOwned job)
  deleteOverview job :=
    attempt place "Could not delete job overview" job (Table.erase (Keyed.overviewStart ++ job))
  listOverviews := operation (withTable place fun t => (.ok (Keyed.listOverviews t), t))
  holds job := operation (withTable place fun t => (.ok (t.hasOwned job), t))
  publish json := operation (withTable place fun t => (.ok (), Keyed.publish json t))
  close w := (⟨.ok (), []⟩, w.1, .closed)

end ArchiveKeeper.Store
