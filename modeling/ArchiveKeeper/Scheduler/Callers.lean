import ArchiveKeeper.Scheduler

namespace ArchiveKeeper.Scheduler

inductive Expectation where
  /-- The result of a run. -/
  | result (run : Nat)
  /-- The end of a run. -/
  | ending (run : Nat)
  /-- The end of all runs. -/
  | idle
deriving DecidableEq, Repr, Inhabited

inductive Answer where
  | done
  | result (r : Fetch.Result)
  | refused (e : Failure)
deriving DecidableEq, Repr, Inhabited

structure Callers where
  scheduler : Scheduler
  /-- How many tickets there have been. -/
  tickets : Nat
  /-- The tickets of the runs that triggers have asked for. -/
  shared : List (Nat × Nat)
  waiting : List (Nat × Expectation)
  /-- The tickets that have been answered and not yet been collected. -/
  answered : List (Nat × Answer)
  log : List Log.Record
deriving Inhabited

namespace Callers

def initial : Callers := ⟨.initial, 0, [], [], [], []⟩

def await (expectation : Expectation) (c : Callers) : Nat × Callers :=
  (c.tickets + 1, { c with
    tickets := c.tickets + 1, waiting := c.waiting ++ [(c.tickets + 1, expectation)] })

def settle (a : Answer) (c : Callers) : Nat × Callers :=
  (c.tickets + 1, { c with
    tickets := c.tickets + 1, answered := c.answered ++ [(c.tickets + 1, a)] })

/-- The tickets answered since the last time, in their order. -/
def collect (c : Callers) : List (Nat × Answer) × Callers :=
  (c.answered.mergeSort fun a b => a.1 ≤ b.1, { c with answered := [], log := [] })

def trigger (c : Callers) : Nat × Callers :=
  let (run, log, s) := c.scheduler.trigger
  let c := { c with scheduler := s, log := c.log ++ log }
  match c.shared.find? fun p => p.1 = run with
  | some (_, ticket) => (ticket, c)
  | none =>
    let (ticket, c) := c.await (.result run)
    (ticket, { c with shared := (run, ticket) :: c.shared })

def start (expression : String) (runOnStart : Bool) (c : Callers) : Nat × Callers :=
  let (r, log, s) := c.scheduler.start expression runOnStart
  let c := { c with scheduler := s, log := c.log ++ log }
  match r with
  | .error e => c.settle (.refused e)
  | .ok .nothing => c.settle .done
  | .ok (.run run) => c.await (.ending run)
  | .ok .idle => c.await .idle

def stop (c : Callers) : Nat × Callers :=
  let (wait, s) := c.scheduler.stop
  let c := { c with scheduler := s }
  match wait with
  | .nothing => c.settle .done
  | .run run => c.await (.ending run)
  | .idle => c.await .idle

def answer? (run : Nat) (r : Fetch.Result) (idle : Bool) : Expectation → Option Answer
  | .result n => if n = run then some (.result r) else none
  | .ending n => if n = run then some .done else none
  | .idle => if idle then some .done else none

/-- Ends the current run, and answers whoever waited for that; tells whether there was one. -/
def finish (outcome : Nat → Except Failure Fetch.Result) (c : Callers) : Bool × Callers :=
  let (ended, log, s) := c.scheduler.finish (outcome (c.scheduler.running.getD 0))
  let c := { c with scheduler := s, log := c.log ++ log }
  match ended with
  | none => (false, c)
  | some (run, r) =>
    let idle := s.isIdle
    (true, { c with
      waiting := c.waiting.filter fun w => (answer? run r idle w.2).isNone
      answered := c.answered ++ c.waiting.filterMap fun w => (answer? run r idle w.2).map (w.1, ·) })

end Callers

end ArchiveKeeper.Scheduler
