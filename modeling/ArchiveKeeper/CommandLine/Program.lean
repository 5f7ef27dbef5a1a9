import ArchiveKeeper.CommandLine.Report
import ArchiveKeeper.CommandLine.Request
import ArchiveKeeper.Config.File
import ArchiveKeeper.Fetch.Site
import ArchiveKeeper.Watch

namespace ArchiveKeeper.CommandLine

/-- What surrounds a command: its working directory, the environment, and the object store. -/
structure Surroundings (τ : Type) where
  directory : Files.Path
  environment : Environment
  objects : ObjectStore τ

variable {σ τ : Type}

def announced (e : Event) : Log.Record :=
  Log.info "Archive event" [("jobId", .str e.job), ("type", .str e.kind.name)]

def logEvents : Listener σ := fun e s => (⟨.ok (), [announced e]⟩, s)

/-- The configuration in a file that may be named. Variables from the environment file count where
they are not set. -/
def Surroundings.config (w : Surroundings τ) (path? : Option String) (files : Files.Tree) :
    Except Failure Config :=
  Config.load w.directory files path? (Config.withEnvironmentFile w.directory files w.environment)

def Surroundings.fetcher (w : Surroundings τ) (c : Config) :
    Except Failure (Fetch.Fetcher (Site τ)) :=
  Site.fetcher w.directory w.objects (some logEvents) c

/-- Closes a store behind a command. If that fails, the command has failed. -/
def closing (store : Store σ) (command : σ → Report × σ) : σ → Report × σ := fun s =>
  let (r, s) := command s
  match store.close s with
  | (⟨.ok (), log⟩, s) => ({ r with log := r.log ++ log }, s)
  | (⟨.error e, log⟩, s) => (⟨r.printed, .failed e, r.log ++ log⟩, s)

def fetch (f : Fetch.Fetcher σ) : σ → Report × σ := fun s =>
  match f.prepare s with
  | (⟨.error e, log⟩, s) => (⟨[], .failed e, log⟩, s)
  | (⟨.ok (), log⟩, s) =>
    let (result, p) := f.cycle f.emptyCache s
    (⟨summary result, if result.completed then .done else .aborted, log ++ p.log⟩, p.world)

/-- A watch that is told to stop after its first cycle. -/
def watch (schedule : String) (f : Fetch.Fetcher σ) : σ → Report × σ := fun s =>
  match Watch.start schedule f s with
  | (⟨.error e, log⟩, s) => (⟨[], .failed e, log⟩, s)
  | (⟨.ok w, log⟩, s) =>
    match w.stop s with
    | (⟨.ok (), more⟩, s) => (⟨[], .done, log ++ more⟩, s)
    | (⟨.error _, more⟩, s) => (⟨[], .unclean, log ++ more⟩, s)

def document (store : Store σ) (path : String) : σ → Report × σ := fun s =>
  match store.get path s with
  | (⟨.ok (some json), log⟩, s) => (⟨[json], .done, log⟩, s)
  | (⟨.ok none, log⟩, s) => (⟨[], .noDocument path, log⟩, s)
  | (⟨.error e, log⟩, s) => (⟨[], .failed e, log⟩, s)

def Command.run (c : Command) (w : Surroundings τ) (config : Config) (s : Site τ) :
    Report × Site τ :=
  match c with
  | .fetch =>
    match w.fetcher config with
    | .error e => (.ofFailure e, s)
    | .ok f => closing f.store (CommandLine.fetch f) s
  | .watch =>
    match w.fetcher config with
    | .error e => (.ofFailure e, s)
    | .ok f => CommandLine.watch config.archive.schedule f s
  | .overview =>
    let store := Site.store w.directory config.storage
    closing store (CommandLine.document store Job.overviewPath) s
  | .document path =>
    let store := Site.store w.directory config.storage
    closing store (CommandLine.document store path) s

def Request.run (w : Surroundings τ) (s : Site τ) : Request → Report × Site τ
  | .help => (⟨[usage], .done, []⟩, s)
  | .command c path? =>
    match w.config path? s.files with
    | .error e => (.ofFailure e, s)
    | .ok config =>
      let (report, s) := c.run w config s
      (report.limit config.logging.level, s)

/-- Runs a command line. The database is not open when it begins. -/
def run (w : Surroundings τ) (arguments : List String) (s : Site τ) : Report × Site τ :=
  let s := { s with connection := .closed }
  match Request.read arguments with
  | .error m => (⟨[], .misused m, []⟩, s)
  | .ok request => request.run w s

end ArchiveKeeper.CommandLine
