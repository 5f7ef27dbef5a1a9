import ArchiveKeeper.Cron
import ArchiveKeeper.Fetch.Cycle

namespace ArchiveKeeper

namespace Fetch

def Result.incomplete : Result := ⟨[], [], [], [], false⟩

end Fetch

/-- Runs are numbered from one in the order in which they were asked for. -/
structure Scheduler where
  /-- Whether the schedule is in force. -/
  armed : Bool
  running : Option Nat
  /-- The runs that wait, in their order. -/
  waiting : List Nat
  /-- How many runs there have been so far. -/
  asked : Nat
deriving DecidableEq, Repr, Inhabited

namespace Scheduler

inductive Wait where
  | nothing
  /-- The end of a run. -/
  | run (n : Nat)
  /-- The end of all runs. -/
  | idle
deriving DecidableEq, Repr, Inhabited

def initial : Scheduler := ⟨false, none, [], 0⟩

def isRunning (s : Scheduler) : Bool := s.running.isSome

def isIdle (s : Scheduler) : Bool := s.running.isNone && s.waiting.isEmpty

def started (s : Scheduler) : Nat := s.asked - s.waiting.length

def advance (s : Scheduler) : Scheduler :=
  match s.running, s.waiting with
  | none, next :: rest => { s with running := some next, waiting := rest }
  | _, _ => s

/-- Asks for a run; answers the one that the caller gets. -/
def trigger (s : Scheduler) : Nat × List Log.Record × Scheduler :=
  if s.waiting ≠ [] then
    (s.asked, [Log.debug "Archive fetch already queued; coalescing trigger" []], s)
  else
    let run := s.asked + 1
    (run, [], { s with asked := run, waiting := s.waiting ++ [run] }.advance)

/-- Ends the current run with the outcome of its cycle; answers the run and its result. -/
def finish (outcome : Except Failure Fetch.Result) (s : Scheduler) :
    Option (Nat × Fetch.Result) × List Log.Record × Scheduler :=
  match s.running with
  | none => (none, [], s)
  | some run =>
    let s := { s with running := none }.advance
    match outcome with
    | .ok result => (some (run, result), [], s)
    | .error e =>
      let failed := Log.error "Archive fetch cycle failed" [("err", .str e.message)]
      (some (run, .incomplete), [failed], s)

/-- Puts a schedule in force, with a first run at once if that is wanted. -/
def start (expression : String) (runOnStart : Bool) (s : Scheduler) :
    Except Failure Wait × List Log.Record × Scheduler :=
  if !Cron.isValid expression then (.error (.configuration (.cron expression)), [], s)
  else if s.armed then (.ok .nothing, [], s)
  else
    let scheduled := Log.info "Archive refresh scheduled" [("cron", .str expression)]
    let s := { s with armed := true }
    if runOnStart then
      let (run, log, s) := s.trigger
      (.ok (.run run), scheduled :: log, s)
    else (.ok .nothing, [scheduled], s)

/-- Ends the schedule; the runs that were asked for still take place. -/
def stop (s : Scheduler) : Wait × Scheduler :=
  (if s.isIdle then .nothing else .idle, { s with armed := false })

end Scheduler

end ArchiveKeeper
