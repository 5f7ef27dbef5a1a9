import ArchiveKeeper.Check.Basic
import ArchiveKeeper.Failure
import ArchiveKeeper.Job.Id
import ArchiveKeeper.Json.Printer
import ArchiveKeeper.Json.Reader

namespace ArchiveKeeper.Job

inductive Status where
  | initializing
  | created
  | running
  | failing
  | failed
  | cancelling
  | canceled
  | finished
  | restarting
  | suspended
  | reconciling
deriving DecidableEq, Repr

def Status.name : Status → String
  | .initializing => "INITIALIZING"
  | .created => "CREATED"
  | .running => "RUNNING"
  | .failing => "FAILING"
  | .failed => "FAILED"
  | .cancelling => "CANCELLING"
  | .canceled => "CANCELED"
  | .finished => "FINISHED"
  | .restarting => "RESTARTING"
  | .suspended => "SUSPENDED"
  | .reconciling => "RECONCILING"

def Status.all : List Status :=
  [.initializing, .created, .running, .failing, .failed, .cancelling, .canceled, .finished,
    .restarting, .suspended, .reconciling]

/-- Task counts as older producers report them: with the pending ones in one number, or split. -/
structure LegacyTasks where
  total : Double
  pending : Option Double
  created : Option Double
  scheduled : Option Double
  deploying : Option Double
  running : Double
  finished : Double
  canceling : Double
  canceled : Double
  failed : Double

structure LegacyOverview where
  jid : String
  name : Json.Text
  state : Status
  startTime : Double
  endTime : Double
  duration : Double
  lastModification : Double
  tasks : LegacyTasks

/-- The tasks that wait, by what they wait for. -/
structure WaitingTasks where
  created : Double
  scheduled : Double
  deploying : Double

namespace LegacyTasks

open Check in
def check : Check Json.Value LegacyTasks :=
  record fun find =>
    LegacyTasks.mk
      <$> field "total" count find
      <*> field "pending" (optional count) find
      <*> field "created" (optional count) find
      <*> field "scheduled" (optional count) find
      <*> field "deploying" (optional count) find
      <*> field "running" count find
      <*> field "finished" count find
      <*> field "canceling" count find
      <*> field "canceled" count find
      <*> field "failed" count find

def waiting? (t : LegacyTasks) : Option WaitingTasks :=
  match t.pending, t.created, t.scheduled, t.deploying with
  | some pending, _, _, _ => some ⟨Double.zero, pending, Double.zero⟩
  | none, some created, some scheduled, some deploying => some ⟨created, scheduled, deploying⟩
  | none, _, _, _ => none

end LegacyTasks

namespace LegacyOverview

open Check in
def check : Check Json.Value LegacyOverview :=
  record fun find =>
    LegacyOverview.mk
      <$> field "jid" (insist string isId (.rule "not a valid job id")) find
      <*> field "name" text find
      <*> field "state" (oneOf (Status.all.map fun s => (s.name, s))) find
      <*> field "start-time" number find
      <*> field "end-time" number find
      <*> field "duration" number find
      <*> field "last-modification" number find
      <*> field "tasks" LegacyTasks.check find

def listed : Check Json.Value (List Json.Value) :=
  Check.record (Check.field "finished" (Check.insist (Check.listOf Check.anything) (· ≠ [])
    (.rule "a legacy overview must describe its job")))

def present (o : LegacyOverview) (waiting : WaitingTasks) : Json.Value :=
  .record [("jobs", .array [.record [
    ("jid", .str o.jid),
    ("name", .string o.name),
    ("start-time", .number o.startTime),
    ("end-time", .number o.endTime),
    ("duration", .number o.duration),
    ("state", .str o.state.name),
    ("last-modification", .number o.lastModification),
    ("tasks", .record [
      ("total", .number o.tasks.total),
      ("created", .number waiting.created),
      ("scheduled", .number waiting.scheduled),
      ("deploying", .number waiting.deploying),
      ("running", .number o.tasks.running),
      ("finished", .number o.tasks.finished),
      ("canceling", .number o.tasks.canceling),
      ("canceled", .number o.tasks.canceled),
      ("failed", .number o.tasks.failed),
      ("reconciling", .number Double.zero),
      ("initializing", .number Double.zero)])]])]

def read (job raw : String) : Except Failure LegacyOverview :=
  match Json.Value.read? raw with
  | none => .error (.malformed job .legacyNotJson)
  | some value =>
    match (listed (some value)).toExcept with
    | .error issues => .error (.malformed job (.legacyForm issues))
    | .ok jobs =>
      match (check jobs.head?).toExcept with
      | .error issues => .error (.malformed job (.legacyForm issues))
      | .ok overview => .ok overview

/-- The text of the jobs overview that a legacy overview amounts to. -/
def convert (job raw : String) : Except Failure String :=
  match read job raw with
  | .error e => .error e
  | .ok overview =>
    match overview.tasks.waiting? with
    | none => .error (.malformed job .countsMissing)
    | some waiting => .ok (overview.present waiting).text

end LegacyOverview

end ArchiveKeeper.Job
