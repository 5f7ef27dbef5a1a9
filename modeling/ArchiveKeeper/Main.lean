import ArchiveKeeper.CommandLine.Program
import ArchiveKeeper.Files.Change
import ArchiveKeeper.Table.Written

namespace ArchiveKeeper.Main

open Files

-- Files

partial def gather (t : Tree) (p : Path) : IO Tree := do
  let place := (← IO.currentDir) / Path.text p
  if ← place.isDir then
    let t := t.insert p .directory
    (← place.readDir).foldlM (fun t entry => gather t (p ++ [entry.fileName])) t
  else if ← place.pathExists then
    let content := Text.ofBytes (← IO.FS.readBinFile place).toList
    let time := (← place.metadata).modified
    let modified := time.sec * 1000 + (time.nsec.toNat / 1000000 : Nat)
    return t.insert p (.file content modified)
  else return t

/-- Adds what stands on the way to a path to a tree. -/
def gatherAbove (t : Tree) (p : Path) : IO Tree :=
  (List.range p.length).foldlM (fun t n => do
    let place := (← IO.currentDir) / Path.text (p.take n)
    if ← place.isDir then return t.insert (p.take n) .directory
    else if ← place.pathExists then return t.insert (p.take n) (.file "" 0)
    else return t) t

def gatherAll (t : Tree) (ps : List Path) : IO Tree :=
  ps.foldlM (fun t p => do gather (← gatherAbove t p) p) t

def withTable (t : Tree) (p : Path) : Tree :=
  match t.node? p with
  | some (.file content _) =>
    match Table.ofText? content with
    | some table => t.insert p (.database table)
    | none => t
  | _ => t

def carryOut : Change → IO Unit
  | .remove p => do
    let place := (← IO.currentDir) / Path.text p
    if ← place.isDir then IO.FS.removeDirAll place else IO.FS.removeFile place
  | .put p .directory => IO.FS.createDirAll (Path.text p)
  | .put p (.file content _) => IO.FS.writeFile (Path.text p) content
  | .put p (.database table) => IO.FS.writeFile (Path.text p) table.text

-- Surroundings

def unreachable : ObjectStore Unit :=
  let refusal := Failure.plain "No object store can be reached."
  ⟨fun _ _ => Operation.fail refusal, fun _ _ => Operation.fail refusal,
    fun _ _ => Operation.fail refusal⟩

def lookUp (names : List String) : IO Environment :=
  names.filterMapM fun name => do return (← IO.getEnv name).map (name, ·)

def fileText (t : Tree) (base : Path) (s : String) : String :=
  match t.locate base s with
  | .ok (_, .file content _) => content
  | _ => ""

/-- The surroundings of a command with a configuration file that may be named, and the files that
are needed to read the configuration. -/
def surroundings (path? : Option String) : IO (CommandLine.Surroundings Unit × Tree) := do
  let base := Path.resolve [] (← IO.currentDir).toString
  let t ← gatherAll .empty [base ++ [Config.environmentFile]]
  let fileNames := (Environment.File.read (fileText t base Config.environmentFile)).map Prod.fst
  let names := Config.pathVariable :: Config.overrides.map Prod.fst ++ fileNames
  let e := Config.withEnvironmentFile base t (← lookUp names)
  let path := (Config.namedPath? path? e).getD (Config.standardPath base)
  let t ← gatherAll t [Path.resolve base path]
  let mentioned ← lookUp (Environment.mentioned (fileText t base path).toList)
  return (⟨base, e.extend mentioned, unreachable⟩, t)

/-- The places that a configuration leads to: where it stores, and where its archives are. -/
def places (base : Path) (c : Config) : List Path :=
  let store := match c.storage.backend with
    | .files => [Path.resolve base c.storage.directory]
    | .table => (Store.Database.Place.ofText base c.storage.database).file.toList
  store ++ c.archive.locations.filterMap fun l =>
    match Location.read l with
    | .ok (.directory path) => some (Path.resolve base path)
    | _ => none

def filesFor (base : Path) (c : Config) (t : Tree) : IO Tree := do
  let t ← gatherAll t (places base c)
  match c.storage.backend with
  | .files => return t
  | .table =>
    return (Store.Database.Place.ofText base c.storage.database).file.toList.foldl withTable t

-- Commands

def sayAll (log : List Log.Record) : IO Unit :=
  log.forM fun r => IO.println (Json.Value.text (r.line []))

/-- Carries out what a command did to the files, and shows its report. -/
def finish (before : Tree) (r : CommandLine.Report × Site Unit) : IO UInt32 := do
  (before.changes r.2.files).forM carryOut
  sayAll r.1.log
  IO.print r.1.output
  IO.eprint r.1.complaint
  return UInt32.ofNat r.1.ending.exitCode

/-- There is no clock: every line of the input is a tick of the schedule, and its end ends the
watch. -/
partial def keepWatching (input : IO.FS.Stream) (base : Path) (c : Config)
    (w : Watch (Site Unit)) (s : Site Unit) : IO UInt32 := do
  let line ← input.getLine
  let kept := fun (log : List Log.Record) => log.filter fun r => c.logging.level.admits r.level
  if line.isEmpty then
    let (reply, _) := w.stop s
    sayAll (kept reply.log)
    return match reply.outcome with
      | .ok () => 0
      | .error _ => 1
  else
    let files ← filesFor base c .empty
    let (log, w, s) := w.tick (s.withFiles files)
    (files.changes s.files).forM carryOut
    sayAll (kept log)
    keepWatching input base c w s

def watch (w : CommandLine.Surroundings Unit) (c : Config) (s : Site Unit) : IO UInt32 := do
  match w.fetcher c with
  | .error e => finish s.files (.ofFailure e, s)
  | .ok f =>
    match Watch.start c.archive.schedule f s with
    | (⟨.error e, log⟩, after) =>
      finish s.files (CommandLine.Report.limit c.logging.level ⟨[], .failed e, log⟩, after)
    | (⟨.ok watch, log⟩, after) =>
      let _ ← finish s.files (CommandLine.Report.limit c.logging.level ⟨[], .done, log⟩, after)
      keepWatching (← IO.getStdin) w.directory c watch after

def run (arguments : List String) : IO UInt32 := do
  match CommandLine.Request.read arguments with
  | .error m => finish .empty (⟨[], .misused m, []⟩, ⟨.empty, .closed, ()⟩)
  | .ok request =>
    let path? := match request with
      | .command _ path? => path?
      | .help => none
    let (w, t) ← surroundings path?
    match w.config path? t with
    | .error _ => finish t (request.run w ⟨t, .closed, ()⟩)
    | .ok c =>
      let t ← filesFor w.directory c t
      match request with
      | .command .watch _ => watch w c ⟨t, .closed, ()⟩
      | _ => finish t (request.run w ⟨t, .closed, ()⟩)

end ArchiveKeeper.Main

def main (arguments : List String) : IO UInt32 := do
  try ArchiveKeeper.Main.run arguments
  catch e =>
    IO.eprintln ("Error: " ++ toString e)
    return 1
