import ArchiveKeeper.Scheduler
import Mathlib.Tactic.Common

namespace ArchiveKeeper.Scheduler

abbrev Outcome := Except Failure Fetch.Result

def resultOf : Outcome → Fetch.Result
  | .ok result => result
  | .error _ => .incomplete

variable {s : Scheduler} {ended : Nat}

/-- Some runs have ended. Of those asked for since, the first one is running, and the second waits. -/
inductive Paced (ended : Nat) : Scheduler → Prop
  | idle (armed : Bool) : Paced ended ⟨armed, none, [], ended⟩
  | busy (armed : Bool) : Paced ended ⟨armed, some (ended + 1), [], ended + 1⟩
  | full (armed : Bool) : Paced ended ⟨armed, some (ended + 1), [ended + 2], ended + 2⟩

namespace Paced

theorem started_bounds (h : Paced ended s) :
    ended ≤ s.started ∧ s.started ≤ ended + 1 ∧ s.started ≤ s.asked := by
  cases h <;> simp [started]

theorem waiting (h : Paced ended s) :
    s.waiting.length ≤ 1 ∧ ∀ n ∈ s.waiting, n = s.started + 1 ∧ s.isRunning := by
  cases h <;> simp [started, isRunning]

theorem running (h : Paced ended s) {n : Nat} (hn : s.running = some n) :
    n = s.started ∧ n = ended + 1 := by
  cases h with
  | idle => cases hn
  | busy => exact ⟨(Option.some.inj hn).symm, (Option.some.inj hn).symm⟩
  | full => exact ⟨(Option.some.inj hn).symm, (Option.some.inj hn).symm⟩

theorem isRunning_iff (h : Paced ended s) : s.isRunning ↔ ended < s.asked := by
  cases h <;> simp [isRunning]

theorem arm (h : Paced ended s) (armed : Bool) : Paced ended { s with armed := armed } := by
  cases h with
  | idle => exact .idle armed
  | busy => exact .busy armed
  | full => exact .full armed

/-- Whoever triggers gets the first run that is not yet under way. -/
theorem run_trigger (h : Paced ended s) : s.trigger.1 = s.started + 1 := by
  cases h <;> rfl

theorem trigger (h : Paced ended s) : Paced ended s.trigger.2.2 := by
  cases h with
  | idle armed => exact .busy armed
  | busy armed => exact .full armed
  | full armed => exact .full armed

theorem asked_trigger (h : Paced ended s) : s.trigger.2.2.asked = max s.asked (s.started + 1) := by
  cases h <;> simp [Scheduler.trigger, advance, started]

theorem finish_idle (h : Paced ended s) (hr : ¬ s.isRunning) (outcome : Outcome) :
    s.finish outcome = (none, [], s) := by
  cases h with
  | idle => rfl
  | busy => exact absurd rfl hr
  | full => exact absurd rfl hr

theorem finish (h : Paced ended s) (hr : s.isRunning) (outcome : Outcome) :
    (s.finish outcome).1 = some (ended + 1, resultOf outcome) ∧
      Paced (ended + 1) (s.finish outcome).2.2 ∧
      (s.finish outcome).2.2.running = s.waiting.head? ∧
      (s.finish outcome).2.2.asked = s.asked := by
  cases h with
  | idle => cases hr
  | busy armed =>
    cases outcome with
    | ok => exact ⟨rfl, .idle armed, rfl, rfl⟩
    | error => exact ⟨rfl, .idle armed, rfl, rfl⟩
  | full armed =>
    cases outcome with
    | ok => exact ⟨rfl, .busy armed, rfl, rfl⟩
    | error => exact ⟨rfl, .busy armed, rfl, rfl⟩

end Paced

def startsRun (expression : String) (runOnStart : Bool) (s : Scheduler) : Bool :=
  Cron.isValid expression && !s.armed && runOnStart

/-- Putting a schedule in force is a trigger, or no business of the runs. -/
theorem start_cases (s : Scheduler) (expression : String) (runOnStart : Bool) :
    startsRun expression runOnStart s = true ∧
        (s.start expression runOnStart).1 = .ok (.run s.trigger.1) ∧
        (s.start expression runOnStart).2.2 = ({ s with armed := true } : Scheduler).trigger.2.2 ∨
      startsRun expression runOnStart s = false ∧
        (∀ n, (s.start expression runOnStart).1 ≠ .ok (.run n)) ∧
        ∃ armed, (s.start expression runOnStart).2.2 = { s with armed := armed } := by
  unfold startsRun Scheduler.start
  cases hv : Cron.isValid expression with
  | false => exact .inr ⟨by simp, by simp, s.armed, by simp⟩
  | true =>
    cases ha : s.armed with
    | true => exact .inr ⟨by simp, by simp, s.armed, by simp⟩
    | false =>
      cases runOnStart with
      | false => exact .inr ⟨by simp, by simp, true, by simp⟩
      | true =>
        refine .inl ⟨by simp, ?_, by simp⟩
        simp only [Bool.not_true, Bool.false_eq_true, if_false, if_true]
        unfold trigger
        split <;> rfl

end ArchiveKeeper.Scheduler
