import ArchiveKeeper.Cache
import ArchiveKeeper.Event
import ArchiveKeeper.Fetch.Retention
import ArchiveKeeper.Job.LegacyOverview
import ArchiveKeeper.Overview.Publication
import ArchiveKeeper.Source.Basic

namespace ArchiveKeeper.Fetch

structure Result where
  created : List String
  deleted : List String
  failedLocations : List String
  failedJobs : List String
  /-- Whether the cycle came to its end. -/
  completed : Bool
deriving DecidableEq, Repr, Inhabited

/-- What a cycle works with: the sources in their configured order, the store, the listener, and the
bindings of the records that the cycle and the publication of the overview leave. -/
structure Fetcher (σ : Type) (ε : Type := Failure) where
  sources : List (Source σ)
  store : Store σ ε
  listener : Option (Listener σ ε)
  policy : Policy
  cycleBindings : List (String × Json.Value)
  overviewBindings : List (String × Json.Value)

/-- What a cycle does: it takes up an archive at a position of its listing, or it makes a request of
the world and is answered. -/
inductive Deed where
  | visit (location : String) (position : Nat) (archive : Archive)
  | list (location : String) (answer : Except Failure (List Archive))
  | read (location : String) (archive : Archive) (answer : Except Failure (List Document))
  | remove (location : String) (archive : Archive) (answer : Except Failure Unit)
  | put (job path json : String) (answer : Except Failure Unit)
  | delete (job : String) (answer : Except Failure Unit)
  | republish (answer : Except Failure (Option Nat))
  | deliver (events : List Event)

/-- A deed, with the cache and the world that it found. -/
structure Moment (σ : Type) where
  deed : Deed
  cache : Cache
  world : σ

structure Progress (σ : Type) where
  world : σ
  cache : Cache
  log : List Log.Record
  /-- The deeds so far. -/
  trace : List (Moment σ)
  created : List String
  failedLocations : List String
  failedJobs : List String

/-- A step of a cycle, which may end the cycle with a failure. -/
abbrev Act (σ : Type) := ExceptT Failure (StateM (Progress σ))

/-- An archive beyond the limit of its source. -/
structure Surplus (σ : Type) where
  source : Source σ
  archive : Archive

namespace Fetcher

variable {σ ε : Type}

def say (f : Fetcher σ ε) (r : Log.Record) : Act σ Unit :=
  modify fun p => { p with log := p.log ++ [r.bind f.cycleBindings] }

/-- Makes a request and keeps its outcome, whatever it is. -/
def ask (deed : Except Failure α → Deed) (operation : Operation σ α) : Act σ (Except Failure α) :=
  modifyGet fun p =>
    let (reply, world) := operation p.world
    (reply.outcome, { p with
      world, log := p.log ++ reply.log,
      trace := p.trace ++ [⟨deed reply.outcome, p.cache, p.world⟩] })

def takeUp (location : String) (position : Nat) (a : Archive) : Act σ Unit :=
  modify fun p => { p with
    trace := p.trace ++ [⟨.visit location position a, p.cache, p.world⟩] }

/-- Makes a request, which ends the cycle if it fails. -/
def demand (deed : Except Failure α → Deed) (operation : Operation σ α) : Act σ Unit := do
  match ← ask deed operation with
  | .ok _ => return ()
  | .error e => throw e

def deleteJob (f : Fetcher σ ε) (job : String) : Act σ Unit :=
  demand (.delete job) (f.store.delete job)

/-- The form in which a document of a bundle is stored: legacy overviews are converted. -/
def stored (job : String) (d : Document) : Except Failure Document :=
  if d.path = Job.legacyOverviewPath then
    (Job.LegacyOverview.convert job d.json).map (⟨Job.overviewPath, ·⟩)
  else .ok d

def storeAll (f : Fetcher σ ε) (a : Archive) : List Document → Act σ (Except Failure Unit)
  | [] => return .ok ()
  | d :: ds => do
    if d.path = Job.legacyOverviewPath then
      f.say (Log.debug "Migrating legacy archive" [("jobId", .str a.job), ("path", .str a.path)])
    match stored a.job d with
    | .error e => return .error e
    | .ok d =>
      match ← ask (.put a.job d.path d.json) (f.store.put a.job d.path d.json) with
      | .error _ => return .error (.ingestion a.job (.unstored d.path))
      | .ok () => f.storeAll a ds

def transfer (f : Fetcher σ ε) (source : Source σ) (a : Archive) : Act σ (Except Failure Unit) := do
  match ← ask (.read source.location a) (source.read a) with
  | .error e => return .error e
  | .ok docs => f.storeAll a docs

/-- Ingests an archive, or removes all that it left if it fails; it is offered again next time. -/
def ingest (f : Fetcher σ ε) (source : Source σ) (a : Archive) : Act σ Bool := do
  f.say (Log.info "Processing archive" [("jobId", .str a.job), ("path", .str a.path)])
  match ← f.transfer source a with
  | .ok () =>
    f.say (Log.info "Processing archive finished" [("jobId", .str a.job)])
    return true
  | .error e =>
    f.say (Log.error "Failure while fetching/processing job archive"
      [("jobId", .str a.job), ("err", .str e.message)])
    f.deleteJob a.job
    return false

/-- Deals with an archive at a position of its listing, given the ids that its location held when
the cycle began; answers whether it is beyond the limit. -/
def visit (f : Fetcher σ ε) (source : Source σ) (before : List String) (position : Nat) (a : Archive) :
    Act σ Bool := do
  let location := source.location
  takeUp location position a
  if f.policy.isBeyond position then return true
  else if a.job ∈ before then
    f.say (Log.debug "Ignoring archive because it was already fetched" [("path", .str a.path)])
    return false
  else if (← get).cache.heldElsewhere location a.job then
    f.say (Log.debug "Sharing archive already fetched from another location"
      [("jobId", .str a.job), ("path", .str a.path)])
    modify fun p => { p with cache := p.cache.ingest location a.job }
    return false
  else if ← f.ingest source a then
    modify fun p => { p with
      cache := p.cache.ingest location a.job, created := p.created ++ [a.job] }
    return false
  else
    modify fun p => { p with failedJobs := p.failedJobs ++ [a.job] }
    return false

/-- Deals with the archives of a listing from a position on; answers those beyond the limit. -/
def visitAll (f : Fetcher σ ε) (source : Source σ) (before : List String) (position : Nat) :
    List Archive → Act σ (List (Surplus σ))
  | [] => return []
  | a :: rest => do
    let beyond ← f.visit source before position a
    let more ← f.visitAll source before (position + 1) rest
    return if beyond then ⟨source, a⟩ :: more else more

/-- What the visit of the sources leaves to be done: archives beyond the limit, and for each
location that could be listed the ids that are no longer there. -/
structure Leftover (σ : Type) where
  surplus : List (Surplus σ)
  expired : List (String × List String)

/-- Visits the sources in turn; `start` is the cache at the beginning of the cycle. -/
def visitSources (f : Fetcher σ ε) (start : Cache) : List (Source σ) → Act σ (Leftover σ)
  | [] => return ⟨[], []⟩
  | source :: rest => do
    let location := source.location
    f.say (Log.debug "Checking archive directory" [("location", .str location)])
    match ← ask (.list location) source.list with
    | .error e =>
      f.say (Log.error "Failed to access job archive location"
        [("location", .str location), ("err", .str e.message)])
      modify fun p => { p with failedLocations := p.failedLocations ++ [location] }
      f.visitSources start rest
    | .ok archives =>
      let before := start.ids location
      let surplus ← f.visitAll source before 0 archives
      let gone := before.filter fun job => archives.all fun a => a.job ≠ job
      let left ← f.visitSources start rest
      return ⟨surplus ++ left.surplus, (location, gone) :: left.expired⟩

/-- Drops a job from one location. Its documents go with the last location that holds it; until
then there is nothing to announce. -/
def evict (f : Fetcher σ ε) (location job : String) : Act σ (Option Event) := do
  modify fun p => { p with cache := p.cache.evict location job }
  if (← get).cache.heldElsewhere location job then
    f.say (Log.debug "Keeping job still archived in another location"
      [("jobId", .str job), ("location", .str location)])
    return none
  else
    f.deleteJob job
    return some ⟨.deleted, job⟩

def evictSurplus (f : Fetcher σ ε) : List (Surplus σ) → Act σ (List Event)
  | [] => return []
  | s :: rest => do
    f.say (Log.info "Removing archive beyond history size limit"
      [("jobId", .str s.archive.job), ("path", .str s.archive.path)])
    match ← ask (.remove s.source.location s.archive) (s.source.remove s.archive) with
    | .ok () => pure ()
    | .error e =>
      f.say (Log.warn "Could not delete old archive"
        [("path", .str s.archive.path), ("err", .str e.message)])
    let event ← f.evict s.source.location s.archive.job
    let more ← f.evictSurplus rest
    return event.toList ++ more

def evictExpiredOf (f : Fetcher σ ε) (location : String) : List String → Act σ (List Event)
  | [] => return []
  | job :: rest => do
    f.say (Log.info "Removing expired archive" [("jobId", .str job), ("location", .str location)])
    let event ← f.evict location job
    let more ← f.evictExpiredOf location rest
    return event.toList ++ more

def evictExpired (f : Fetcher σ ε) : List (String × List String) → Act σ (List Event)
  | [] => return []
  | (location, jobs) :: rest => do
    let first ← f.evictExpiredOf location jobs
    let more ← f.evictExpired rest
    return first ++ more

def republish [Throwable ε] (f : Fetcher σ ε) : Act σ Unit :=
  demand .republish ((Overview.republish f.store).bind f.overviewBindings)

def announce [Throwable ε] (f : Fetcher σ ε) (events : List Event) : Act σ Unit :=
  match f.listener with
  | none => return ()
  | some listener => demand (fun _ => .deliver events) (Event.deliverAll listener events)

/-- The course of a cycle; answers the ids of the jobs announced as deleted. -/
def course [Throwable ε] (f : Fetcher σ ε) : Act σ (List String) := do
  f.say (Log.debug "Starting archive fetching" [])
  let start := (← get).cache
  let left ← f.visitSources start f.sources
  let created := (← get).created
  let beyond ← f.evictSurplus left.surplus
  let expired ← if f.policy.evictExpired then f.evictExpired left.expired else pure []
  let events := created.map (⟨.created, ·⟩) ++ beyond ++ expired
  if events ≠ [] then f.republish
  f.announce events
  let deleted := (events.filter (·.kind = .deleted)).map (·.job)
  f.say (Log.debug "Finished archive fetching"
    [("created", .nat created.length), ("deleted", .nat deleted.length)])
  return deleted

def begin_ (cache : Cache) (world : σ) : Progress σ := ⟨world, cache, [], [], [], [], []⟩

/-- One cycle from a cache and a world: its result, and how far it came. -/
def cycle [Throwable ε] (f : Fetcher σ ε) (cache : Cache) (world : σ) : Result × Progress σ :=
  match f.course.run.run (begin_ cache world) with
  | (.ok deleted, p) =>
    (⟨p.created, deleted, p.failedLocations, p.failedJobs, true⟩, p)
  | (.error e, p) =>
    let r := Log.error "Critical failure while fetching/processing job archives"
      [("err", .str e.message)]
    (⟨p.created, [], p.failedLocations, p.failedJobs, false⟩,
      { p with log := p.log ++ [r.bind f.cycleBindings] })

def prepare [Throwable ε] (f : Fetcher σ ε) : Operation σ Unit := fun s =>
  match f.store.reset s with
  | (⟨.error e, log⟩, s) => (⟨.error e, log⟩, s)
  | (⟨.ok (), log⟩, s) =>
    match (Overview.republish f.store).bind f.overviewBindings s with
    | (⟨.error e, log'⟩, s) => (⟨.error e, log ++ log'⟩, s)
    | (⟨.ok _, log'⟩, s) =>
      let watched := f.sources.map fun source =>
        (Log.info "Monitoring directory for archived jobs"
          [("location", .str source.location)]).bind f.cycleBindings
      (⟨.ok (), log ++ log' ++ watched⟩, s)

def emptyCache (f : Fetcher σ ε) : Cache := Cache.ofLocations (f.sources.map (·.location))

def repeated? (seen : List String) : List String → Option String
  | [] => none
  | l :: ls => if l ∈ seen then some l else repeated? (l :: seen) ls

def admitLocations (locations : List String) : Except Failure Unit :=
  if locations = [] then .error (.configuration .noLocation)
  else match repeated? [] locations with
    | some l => .error (.configuration (.locationTwice l))
    | none => .ok ()

/-- Checks what a fetcher is to be made of: the limit, and then the locations. -/
def accept (retained : Double) (locations : List String) : Except Failure Limit :=
  match Limit.read retained with
  | .error e => .error e
  | .ok limit => (admitLocations locations).map fun () => limit

end Fetcher

end ArchiveKeeper.Fetch
